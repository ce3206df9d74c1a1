import L4.SharedHashTable

namespace L4
set_option autoImplicit true

/-- The order in which the iterator visits the slots of a table. -/
def SlotBefore {setting : Setting} (s s' : setting.Slot) : Prop :=
  s.1 < s'.1 ∨ s.1 = s'.1 ∧ s.2.Before s'.2

instance {setting : Setting} (s s' : setting.Slot) : Decidable (SlotBefore s s') :=
  inferInstanceAs (Decidable (_ ∨ _))

theorem slotBefore_irrefl {setting : Setting} (s : setting.Slot) : ¬ SlotBefore s s := by
  rintro (h | ⟨-, h⟩)
  · exact absurd h (Fin.lt_irrefl _)
  · exact s.2.before_irrefl h

theorem SlotBefore.trans {setting : Setting} {s s' s'' : setting.Slot} (h : SlotBefore s s')
    (h' : SlotBefore s' s'') : SlotBefore s s'' := by
  rcases h with h | ⟨he, h⟩
  · rcases h' with h' | ⟨he', -⟩
    · exact .inl (Fin.lt_trans h h')
    · exact .inl (he' ▸ h)
  · rcases h' with h' | ⟨he', h'⟩
    · exact .inl (he ▸ h')
    · exact .inr ⟨he.trans he', h.trans h'⟩

theorem slotBefore_trichotomy {setting : Setting} (s s' : setting.Slot) :
    SlotBefore s s' ∨ s = s' ∨ SlotBefore s' s := by
  obtain ⟨i, p⟩ := s
  obtain ⟨j, q⟩ := s'
  rcases Nat.lt_trichotomy i.val j.val with h | h | h
  · exact .inl (.inl h)
  · obtain rfl := Fin.ext h
    rcases SlotIndex.before_trichotomy p q with h | rfl | h
    · exact .inl (.inr ⟨rfl, h⟩)
    · exact .inr (.inl rfl)
    · exact .inr (.inr (.inr ⟨rfl, h⟩))
  · exact .inr (.inr (.inl h))

/-- `ReadOnlyHashTable::Iterator`. An entry pointer is the bucket of the entry and its number in
the chain. -/
structure Iterator (setting : Setting) where
  currentBucketIndex : Int
  currentRecordIndex : Fin numDataPerEntry
  currentEntry : Option (setting.BucketIndex × Nat)
  currentRecord : Option RecordBuffer

namespace Iterator
variable {setting : Setting}

def create : Iterator setting := ⟨-1, 0, none, none⟩

def reset (it : Iterator setting) : Iterator setting :=
  { it with currentBucketIndex := -1, currentRecordIndex := 0, currentEntry := none }

def IsEnd (it : Iterator setting) : Prop := it.currentBucketIndex = setting.numBuckets.toNat

instance (it : Iterator setting) : Decidable it.IsEnd := inferInstanceAs (Decidable (_ = _))

def IsValid (it : Iterator setting) : Prop :=
  ¬ it.IsEnd ∧ it.currentEntry ≠ none ∧ it.currentRecord ≠ none

section Move
variable (t : SharedHashTable setting)

def moveToNextData (it : Iterator setting) : Iterator setting :=
  if h : it.currentRecordIndex.val + 1 < numDataPerEntry then
    { it with currentRecordIndex := ⟨it.currentRecordIndex.val + 1, h⟩ }
  else
    { it with
      currentRecordIndex := 0
      currentEntry := it.currentEntry.bind fun (i, entry) =>
        if entry + 1 < t.buckets[i].chainLength then some (i, entry + 1) else none }

/-- The loop of `MoveNext`, for a bounded number of turns. -/
def moveNextLoop : Nat → Iterator setting → Option (Bool × Iterator setting)
  | 0, _ => none
  | turns + 1, it =>
    match it.currentEntry with
    | none =>
      let i := it.currentBucketIndex + 1
      if h : 0 ≤ i ∧ i.toNat < setting.numBuckets.toNat then
        moveNextLoop turns
          { it with
            currentBucketIndex := i
            currentRecordIndex := 0
            currentEntry := some (⟨i.toNat, h.2⟩, 0) }
      else some (false, { it with currentBucketIndex := i, currentRecordIndex := 0 })
    | some (i, entry) =>
      match t.load (i, ⟨entry, it.currentRecordIndex⟩) with
      | some record => some (true, { it with currentRecord := some record })
      | none => moveNextLoop turns (moveToNextData t { it with currentRecord := none })

/-- The turns that the loop takes for the buckets from a number on. -/
def turnsFrom (first : Nat) : Nat :=
  (((List.finRange setting.numBuckets.toNat).drop first).map fun i =>
    numDataPerEntry * t.buckets[i].chainLength + 1).sum + 1

/-- `MoveNext`. The bound on the turns of its loop is never reached. -/
def moveNext (it : Iterator setting) : Bool × Iterator setting :=
  if it.IsEnd then (false, it)
  else
    let it := if it.currentEntry.isSome then moveToNextData t it else it
    (moveNextLoop t (turnsFrom t 0) it).getD (false, it)

end Move

/-- The loop of `MoveNext` goes to the head of the next bucket, or to the end of the table. -/
def nextBucket (it : Iterator setting) : Iterator setting :=
  let i := it.currentBucketIndex + 1
  if h : 0 ≤ i ∧ i.toNat < setting.numBuckets.toNat then
    { it with
      currentBucketIndex := i
      currentRecordIndex := 0
      currentEntry := some (⟨i.toNat, h.2⟩, 0) }
  else { it with currentBucketIndex := i, currentRecordIndex := 0 }

/-- `GetKey` and `GetValue`. -/
def getRecord (rs : RecordSerializer) (it : Iterator setting) : Except Failure Record :=
  match it.currentEntry, it.currentRecord with
  | some _, some record =>
    if it.IsEnd then .error (.runtimeException "HashTableIterator is not correctly used.")
    else .ok (rs.deserialize record.bytes)
  | _, _ => .error (.runtimeException "HashTableIterator is not correctly used.")

end Iterator

/-- Where an iterator stands between two calls of `MoveNext`. -/
inductive Cursor (setting : Setting) where
  | start
  | slot (s : setting.Slot)
  | finish

/-- The slot lies ahead of the cursor. -/
def Cursor.Ahead {setting : Setting} : Cursor setting → setting.Slot → Prop
  | .start, _ => True
  | .slot s, s' => SlotBefore s s'
  | .finish, _ => False

instance {setting : Setting} : (c : Cursor setting) → DecidablePred c.Ahead
  | .start, _ => isTrue trivial
  | .slot s, s' => inferInstanceAs (Decidable (SlotBefore s s'))
  | .finish, _ => isFalse id

theorem Cursor.Ahead.trans {setting : Setting} {c : Cursor setting} {s s' : setting.Slot}
    (h : c.Ahead s) (h' : SlotBefore s s') : c.Ahead s' := by
  cases c with
  | start => trivial
  | slot s₀ => exact SlotBefore.trans h h'
  | finish => exact h

/-- The entry at which the cursor stands is in its chain. Chains only grow. -/
def Cursor.Inside {setting : Setting} (t : SharedHashTable setting) : Cursor setting → Prop
  | .slot s => s.2.entry < t.buckets[s.1].chainLength
  | _ => True

theorem Cursor.Inside.mono {setting : Setting} {t t' : SharedHashTable setting}
    {c : Cursor setting} (h : c.Inside t)
    (hle : ∀ i : setting.BucketIndex, t.buckets[i].chainLength ≤ t'.buckets[i].chainLength) :
    c.Inside t' := by
  cases c with
  | start => trivial
  | slot s => exact Nat.lt_of_lt_of_le h (hle s.1)
  | finish => trivial

theorem Cursor.inside_of_load {setting : Setting} {t : SharedHashTable setting}
    {s : setting.Slot} (h : t.load s = some record) : (Cursor.slot s).Inside t :=
  Bucket.mem_positions.mp (Bucket.mem_positions_of_load h)

namespace Iterator
variable {setting : Setting} {t : SharedHashTable setting} {it : Iterator setting}

def At (it : Iterator setting) : Cursor setting → Prop
  | .start => it.currentBucketIndex = -1 ∧ it.currentEntry = none
  | .slot s => it.currentBucketIndex = s.1.val ∧ it.currentEntry = some (s.1, s.2.entry) ∧
      it.currentRecordIndex = s.2.index ∧ it.currentRecord ≠ none
  | .finish => it.IsEnd

/-- Where the iterator stands. -/
def cursor (it : Iterator setting) : Cursor setting :=
  if it.IsEnd then .finish
  else
    match it.currentEntry with
    | none => .start
    | some (i, entry) => .slot (i, ⟨entry, it.currentRecordIndex⟩)

theorem At.not_isEnd (h : it.At (.slot s)) : ¬ it.IsEnd := by
  have hlt := s.1.isLt
  rw [IsEnd, h.1]
  omega

theorem At.cursor_eq (h : it.At c) : it.cursor = c := by
  cases c with
  | start =>
    obtain ⟨hbucket, hentry⟩ := h
    have hend : ¬ it.IsEnd := by
      rw [IsEnd, hbucket]
      omega
    simp [cursor, hend, hentry]
  | slot s =>
    have hend := h.not_isEnd
    obtain ⟨-, hentry, hindex, -⟩ := h
    simp [cursor, hend, hentry, hindex]
  | finish => exact if_pos h

theorem At.getRecord_finish {it : Iterator setting} (h : it.At .finish) (rs : RecordSerializer) :
    it.getRecord rs =
      .error (.runtimeException "HashTableIterator is not correctly used.") := by
  have hend : it.IsEnd := h
  rw [getRecord]
  split
  · exact if_pos hend
  · rfl

theorem At.getRecord_slot {it : Iterator setting} (h : it.At (.slot slot))
    (hrecord : it.currentRecord = some record) (rs : RecordSerializer) :
    it.getRecord rs = .ok (rs.deserialize record.bytes) := by
  rw [getRecord, h.2.1, hrecord]
  exact if_neg h.not_isEnd

/-- The outcome of `MoveNext` when it has the given slots ahead: the first occupied slot among
them, or the end. -/
inductive Moved (t : SharedHashTable setting) (ahead : setting.Slot → Prop) :
    Bool × Iterator setting → Prop
  | found (s : setting.Slot) (record : RecordBuffer) (it : Iterator setting) (hahead : ahead s)
      (hload : t.load s = some record)
      (hfirst : ∀ s', ahead s' → SlotBefore s' s → t.load s' = none) (hat : it.At (.slot s))
      (hrecord : it.currentRecord = some record) : Moved t ahead (true, it)
  | ended (it : Iterator setting) (hnone : ∀ s, ahead s → t.load s = none) (hat : it.At .finish) :
      Moved t ahead (false, it)

theorem Moved.mono {ahead ahead' : setting.Slot → Prop} (h : Moved t ahead result)
    (hsub : ∀ s, ahead s → ahead' s) (hrest : ∀ s, ahead' s → ¬ ahead s → t.load s = none) :
    Moved t ahead' result := by
  have hempty : ∀ s, ahead' s → (ahead s → t.load s = none) → t.load s = none := by
    intro s hs hnone
    by_cases ha : ahead s
    · exact hnone ha
    · exact hrest s hs ha
  cases h with
  | found s record it hahead hload hfirst hat hrecord =>
    exact .found s record it (hsub s hahead) hload
      (fun s' hs' hbefore => hempty s' hs' fun ha => hfirst s' ha hbefore) hat hrecord
  | ended it hnone hat => exact .ended it (fun s hs => hempty s hs (hnone s)) hat

/-- The slots that the loop has still to look at. -/
def Pending (it : Iterator setting) (s : setting.Slot) : Prop :=
  match it.currentEntry with
  | none => it.currentBucketIndex < s.1.val
  | some (i, entry) => ¬ SlotBefore s (i, ⟨entry, it.currentRecordIndex⟩)

/-- The invariant of the loop. -/
def WellPlaced (t : SharedHashTable setting) (it : Iterator setting) : Prop :=
  match it.currentEntry with
  | none => -1 ≤ it.currentBucketIndex ∧ it.currentBucketIndex < setting.numBuckets.toNat
  | some (i, entry) => it.currentBucketIndex = i.val ∧ entry < t.buckets[i].chainLength

/-- The turns that the loop has still to take at most. -/
def turnsLeft (t : SharedHashTable setting) (it : Iterator setting) : Nat :=
  match it.currentEntry with
  | none => turnsFrom t (it.currentBucketIndex + 1).toNat
  | some (i, entry) => numDataPerEntry * (t.buckets[i].chainLength - entry) -
      it.currentRecordIndex.val + turnsFrom t (i.val + 1)

theorem turnsFrom_eq (t : SharedHashTable setting) (i : setting.BucketIndex) :
    turnsFrom t i.val =
      numDataPerEntry * t.buckets[i].chainLength + 1 + turnsFrom t (i.val + 1) := by
  have hlt : i.val < (List.finRange setting.numBuckets.toNat).length := by simp
  rw [turnsFrom, List.drop_eq_getElem_cons hlt, List.map_cons, List.sum_cons, turnsFrom]
  simp [Nat.add_assoc]

theorem turnsFrom_le (t : SharedHashTable setting) (k : Nat) : turnsFrom t k ≤ turnsFrom t 0 := by
  rw [turnsFrom, turnsFrom, List.drop_zero]
  conv_rhs => rw [← List.take_append_drop k (List.finRange setting.numBuckets.toNat)]
  rw [List.map_append, List.sum_append]
  omega

theorem slotBefore_iff {i j : setting.BucketIndex} {p q : SlotIndex} :
    SlotBefore (i, p) (j, q) ↔ i.val < j.val ∨ i.val = j.val ∧
      (p.entry < q.entry ∨ p.entry = q.entry ∧ p.index.val < q.index.val) := by
  simp only [SlotBefore, SlotIndex.Before, Fin.lt_def, Fin.ext_iff]

/-- `MoveToNextData` passes one slot, and with it the slots after the end of a chain. -/
structure Passed (t : SharedHashTable setting) (it : Iterator setting) (s : setting.Slot)
    (it' : Iterator setting) : Prop where
  wellPlaced : WellPlaced t it'
  turnsLeft : it'.turnsLeft t < it.turnsLeft t
  before : ∀ s', it'.Pending s' → SlotBefore s s'
  rest : ∀ s', SlotBefore s s' → ¬ it'.Pending s' → t.load s' = none

theorem passed_moveToNextData (hentry : it.currentEntry = some (i, entry))
    (hbucket : it.currentBucketIndex = i.val) (hlt : entry < t.buckets[i].chainLength) :
    Passed t it (i, ⟨entry, it.currentRecordIndex⟩) (moveToNextData t it) := by
  obtain ⟨bucketIndex, index, currentEntry, record⟩ := it
  obtain rfl : currentEntry = some (i, entry) := hentry
  obtain rfl : bucketIndex = i.val := hbucket
  have hindex : index.val < 16 := index.isLt
  have hi := i.isLt
  rw [moveToNextData]
  split_ifs with hnext
  · have hpending (s' : setting.Slot) : ¬ SlotBefore s' (i, ⟨entry, ⟨index.val + 1, hnext⟩⟩) ↔
        SlotBefore (i, ⟨entry, index⟩) s' := by
      obtain ⟨j, q⟩ := s'
      simp only [slotBefore_iff]
      omega
    refine ⟨⟨rfl, hlt⟩, ?_, fun s' => (hpending s').mp, fun s' hs' hn => ?_⟩
    · simp only [turnsLeft, numDataPerEntry]
      omega
    · exact absurd ((hpending s').mpr hs') hn
  · have hlast : index.val = 15 := by
      have : ¬ index.val + 1 < 16 := hnext
      omega
    simp only [Option.bind_some]
    split_ifs with hchain
    · have hpending (s' : setting.Slot) : ¬ SlotBefore s' (i, ⟨entry + 1, 0⟩) ↔
          SlotBefore (i, ⟨entry, index⟩) s' := by
        obtain ⟨j, q⟩ := s'
        have hq : q.index.val < 16 := q.index.isLt
        have hzero : (0 : Fin numDataPerEntry).val = 0 := rfl
        simp only [slotBefore_iff, hzero]
        omega
      refine ⟨⟨rfl, hchain⟩, ?_, fun s' => (hpending s').mp, fun s' hs' hn => ?_⟩
      · have hzero : (0 : Fin numDataPerEntry).val = 0 := rfl
        simp only [turnsLeft, numDataPerEntry, hzero]
        omega
      · exact absurd ((hpending s').mpr hs') hn
    · refine ⟨⟨by simp only; omega, by simp only; omega⟩, ?_, ?_, ?_⟩
      · have hcast : ((i.val : Int) + 1).toNat = i.val + 1 := by omega
        simp only [turnsLeft, numDataPerEntry, hcast]
        omega
      · rintro ⟨j, q⟩ hs'
        have hlt' : (i.val : Int) < j.val := hs'
        rw [slotBefore_iff]
        omega
      · rintro ⟨j, q⟩ hs' hn
        have hle : ¬ (i.val : Int) < j.val := hn
        rw [slotBefore_iff] at hs'
        obtain rfl : i = j := by
          apply Fin.ext
          omega
        apply SharedHashTable.load_eq_none_of_le
        have hq : q.index.val < 16 := q.index.isLt
        show t.buckets[i].chainLength ≤ q.entry
        simp only at hs'
        omega

theorem moved_moveNextLoop (hplace : WellPlaced t it) (hturns : it.turnsLeft t ≤ turns) :
    ∃ result, moveNextLoop t turns it = some result ∧ Moved t it.Pending result := by
  induction turns generalizing it with
  | zero =>
    obtain ⟨bucketIndex, index, currentEntry, record⟩ := it
    cases currentEntry with
    | none => exact absurd hturns (Nat.not_succ_le_zero _)
    | some pointer =>
      simp only [turnsLeft, turnsFrom] at hturns
      omega
  | succ turns ih =>
    obtain ⟨bucketIndex, index, currentEntry, record⟩ := it
    rw [moveNextLoop]
    cases currentEntry with
    | none =>
      obtain ⟨hlow, hhigh⟩ : -1 ≤ bucketIndex ∧ bucketIndex < setting.numBuckets.toNat := hplace
      simp only
      split_ifs with hin
      · have hcast : bucketIndex + 1 = ((bucketIndex + 1).toNat : Int) := by omega
        have hnext : ∃ result, moveNextLoop t turns
            ⟨bucketIndex + 1, 0, some (⟨(bucketIndex + 1).toNat, hin.2⟩, 0), record⟩ =
              some result ∧ Moved t (Pending
                ⟨bucketIndex + 1, 0, some (⟨(bucketIndex + 1).toNat, hin.2⟩, 0), record⟩)
                result := by
          apply ih
          · exact ⟨hcast, Bucket.chainLength_pos _⟩
          · have heq := turnsFrom_eq t ⟨(bucketIndex + 1).toNat, hin.2⟩
            have hzero : (0 : Fin numDataPerEntry).val = 0 := rfl
            simp only [turnsLeft, numDataPerEntry, hzero] at hturns heq ⊢
            omega
        obtain ⟨result, hresult, hmoved⟩ := hnext
        have hzero : (0 : Fin numDataPerEntry).val = 0 := rfl
        refine ⟨result, hresult, hmoved.mono ?_ ?_⟩
        · rintro ⟨j, q⟩ hs
          simp only [Pending, slotBefore_iff, hzero] at hs
          show bucketIndex < j.val
          omega
        · rintro ⟨j, q⟩ hs hn
          have hs' : bucketIndex < j.val := hs
          refine absurd ?_ hn
          simp only [Pending, slotBefore_iff, hzero]
          omega
      · refine ⟨_, rfl, .ended _ ?_ ?_⟩
        · rintro ⟨j, q⟩ hs
          have hs' : bucketIndex < j.val := hs
          have hj := j.isLt
          omega
        · show bucketIndex + 1 = setting.numBuckets.toNat
          omega
    | some pointer =>
      obtain ⟨i, entry⟩ := pointer
      obtain ⟨hbucket, hlt⟩ : bucketIndex = i.val ∧ entry < t.buckets[i].chainLength := hplace
      simp only
      cases hload : t.load (i, ⟨entry, index⟩) with
      | some r =>
        refine ⟨_, rfl, .found (i, ⟨entry, index⟩) r _ (slotBefore_irrefl _) hload ?_ ?_ rfl⟩
        · exact fun s' hs' hbefore => absurd hbefore hs'
        · exact ⟨hbucket, rfl, rfl, by simp⟩
      | none =>
        have hpassed : Passed t ⟨bucketIndex, index, some (i, entry), none⟩ (i, ⟨entry, index⟩) _ :=
          passed_moveToNextData rfl hbucket hlt
        obtain ⟨result, hresult, hmoved⟩ := ih hpassed.wellPlaced
          (Nat.le_of_lt_succ (Nat.lt_of_lt_of_le hpassed.turnsLeft hturns))
        refine ⟨result, hresult, hmoved.mono ?_ ?_⟩
        · intro s hs hbefore
          exact slotBefore_irrefl _ ((hpassed.before s hs).trans hbefore)
        · intro s hs hn
          rcases slotBefore_trichotomy (i, ⟨entry, index⟩) s with hbefore | rfl | hbefore
          · exact hpassed.rest s hbefore hn
          · exact hload
          · exact absurd hbefore hs

theorem wellPlaced_enter (h : it.At c) (hc : c.Inside t) (hend : ¬ it.IsEnd) :
    WellPlaced t (if it.currentEntry.isSome then moveToNextData t it else it) ∧
      ∃ result, moveNextLoop t (turnsFrom t 0)
          (if it.currentEntry.isSome then moveToNextData t it else it) = some result ∧
        Moved t (Pending (if it.currentEntry.isSome then moveToNextData t it else it)) result ∧
        moveNext t it = result := by
  have hplace : WellPlaced t (if it.currentEntry.isSome then moveToNextData t it else it) ∧
      (if it.currentEntry.isSome then moveToNextData t it else it).turnsLeft t ≤ turnsFrom t 0 := by
    cases c with
    | start =>
      obtain ⟨hbucket, hentry⟩ := h
      rw [hentry, Option.isSome_none, if_neg Bool.false_ne_true, WellPlaced, turnsLeft, hentry]
      refine ⟨?_, turnsFrom_le t _⟩
      simp only [hbucket]
      omega
    | slot s =>
      obtain ⟨i, p⟩ := s
      obtain ⟨hbucket, hentry, hindex, hrecord⟩ := h
      have hpassed := passed_moveToNextData hentry hbucket hc
      rw [hentry, Option.isSome_some, if_pos rfl]
      refine ⟨hpassed.wellPlaced, ?_⟩
      have hle := turnsFrom_le t i.val
      have heq := turnsFrom_eq t i
      have hbefore := hpassed.turnsLeft
      have hmul : numDataPerEntry * (t.buckets[i].chainLength - p.entry) ≤
          numDataPerEntry * t.buckets[i].chainLength := Nat.mul_le_mul_left _ (Nat.sub_le _ _)
      simp only [turnsLeft, hentry] at hbefore
      simp only [turnsLeft]
      omega
    | finish => exact absurd h hend
  obtain ⟨result, hresult, hmoved⟩ := moved_moveNextLoop hplace.1 hplace.2
  refine ⟨hplace.1, result, hresult, hmoved, ?_⟩
  simp only [moveNext, if_neg hend, hresult, Option.getD_some]

/-- `MoveNext` goes to the first occupied slot ahead of the cursor. -/
theorem moved_moveNext (h : it.At c) (hc : c.Inside t) : Moved t c.Ahead (moveNext t it) := by
  cases c with
  | start =>
    have hend : ¬ it.IsEnd := by
      rw [IsEnd, h.1]
      omega
    obtain ⟨-, result, -, hmoved, hmove⟩ := wellPlaced_enter h hc hend
    rw [hmove]
    rw [h.2, Option.isSome_none, if_neg Bool.false_ne_true] at hmoved
    refine hmoved.mono (fun _ _ => trivial) fun s _ hn => absurd ?_ hn
    rw [Pending, h.2]
    simp only [h.1]
    omega
  | slot s =>
    obtain ⟨-, result, -, hmoved, hmove⟩ := wellPlaced_enter h hc h.not_isEnd
    obtain ⟨hbucket, hentry, hindex, -⟩ := h
    have hpassed := passed_moveToNextData hentry hbucket hc
    rw [hmove]
    rw [hentry, Option.isSome_some, if_pos rfl] at hmoved
    rw [hindex] at hpassed
    exact hmoved.mono hpassed.before hpassed.rest
  | finish =>
    have hmove : moveNext t it = (false, it) := if_pos h
    rw [hmove]
    exact .ended it (fun s hs => hs.elim) h

end Iterator

namespace SharedHashTable
variable {setting : Setting} {t : SharedHashTable setting} {c : Cursor setting}

/-- The slots of a table, in the order of the iterator. -/
def slots (t : SharedHashTable setting) : List setting.Slot :=
  (List.finRange setting.numBuckets.toNat).flatMap fun i => t.buckets[i].positions.map (i, ·)

theorem mem_slots : s ∈ t.slots ↔ s.2.entry < t.buckets[s.1].chainLength := by
  obtain ⟨i, p⟩ := s
  simp [slots, Bucket.mem_positions]

theorem records_eq (t : SharedHashTable setting) : t.records = t.slots.filterMap t.load := by
  rw [records, slots, List.filterMap_flatMap]
  congr 1
  funext i
  rw [Bucket.records, List.filterMap_map]
  rfl

theorem slots_pairwise (t : SharedHashTable setting) : t.slots.Pairwise SlotBefore := by
  rw [slots, List.pairwise_flatMap]
  constructor
  · intro i _
    rw [List.pairwise_map]
    exact t.buckets[i].positions_pairwise.imp fun h => .inr ⟨rfl, h⟩
  · refine (List.pairwise_lt_finRange _).imp fun hij s hs s' hs' => ?_
    obtain ⟨p, -, rfl⟩ := List.mem_map.mp hs
    obtain ⟨q, -, rfl⟩ := List.mem_map.mp hs'
    exact .inl hij

/-- The records that a cursor has ahead of it, in order. -/
def recordsAhead (t : SharedHashTable setting) (c : Cursor setting) : List RecordBuffer :=
  (t.slots.filter fun s => decide (c.Ahead s)).filterMap t.load

theorem recordsAhead_start (t : SharedHashTable setting) :
    t.recordsAhead .start = t.records := by
  have hall : (t.slots.filter fun s => decide (Cursor.start.Ahead s)) = t.slots :=
    List.filter_eq_self.mpr fun s _ => decide_eq_true trivial
  rw [recordsAhead, hall, records_eq]

theorem length_recordsAhead_le (t : SharedHashTable setting) (c : Cursor setting) :
    (t.recordsAhead c).length ≤ t.records.length := by
  rw [recordsAhead, records_eq]
  exact (List.filter_sublist.filterMap _).length_le

theorem recordsAhead_ended (h : ∀ s, c.Ahead s → t.load s = none) : t.recordsAhead c = [] := by
  rw [recordsAhead, List.filterMap_eq_nil_iff]
  intro s hs
  exact h s (of_decide_eq_true (List.mem_filter.mp hs).2)

theorem recordsAhead_found (hs : c.Ahead s) (hload : t.load s = some record)
    (hfirst : ∀ s', c.Ahead s' → SlotBefore s' s → t.load s' = none) :
    t.recordsAhead c = record :: t.recordsAhead (.slot s) := by
  have hmem : s ∈ t.slots :=
    mem_slots.mpr (Cursor.inside_of_load hload)
  obtain ⟨before, after, hsplit⟩ := List.append_of_mem hmem
  have hpair := t.slots_pairwise
  rw [hsplit, List.pairwise_append, List.pairwise_cons] at hpair
  have hbefore : ∀ q ∈ before, SlotBefore q s := fun q hq => hpair.2.2 q hq s (by simp)
  have hafter : ∀ q ∈ after, SlotBefore s q := hpair.2.1.1
  have hpassed : (before.filter fun q => decide (c.Ahead q)).filterMap t.load = [] := by
    rw [List.filterMap_eq_nil_iff]
    intro q hq
    obtain ⟨hq, ha⟩ := List.mem_filter.mp hq
    exact hfirst q (of_decide_eq_true ha) (hbefore q hq)
  have hbehind : before.filter (fun q => decide ((Cursor.slot s).Ahead q)) = [] := by
    rw [List.filter_eq_nil_iff]
    intro q hq ha
    exact slotBefore_irrefl s ((of_decide_eq_true ha).trans (hbefore q hq))
  have hrest : after.filter (fun q => decide (c.Ahead q)) = after :=
    List.filter_eq_self.mpr fun q hq => decide_eq_true (Cursor.Ahead.trans hs (hafter q hq))
  have hrest' : after.filter (fun q => decide ((Cursor.slot s).Ahead q)) = after :=
    List.filter_eq_self.mpr fun q hq => decide_eq_true (hafter q hq)
  have hself : decide ((Cursor.slot s).Ahead s) = false := decide_eq_false (slotBefore_irrefl s)
  rw [recordsAhead, recordsAhead, hsplit, List.filter_append, List.filterMap_append, hpassed,
    List.nil_append, List.filter_cons, if_pos (decide_eq_true hs), hrest,
    List.filterMap_cons_some hload, List.filter_append, hbehind, List.nil_append,
    List.filter_cons, hself, hrest']
  rfl

end SharedHashTable

end L4
