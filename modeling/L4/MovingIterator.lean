import L4.CacheHashTable
import L4.Library.Transition

namespace L4
set_option autoImplicit true

namespace Iterator
variable {setting : Setting}

/-- The entry at which the iterator stands is in its current bucket. -/
def Aligned (it : Iterator setting) : Prop :=
  ∀ i entry, it.currentEntry = some (i, entry) → it.currentBucketIndex = i.val

theorem aligned_nextBucket (it : Iterator setting) (h : it.currentEntry = none) :
    it.nextBucket.Aligned := by
  intro i entry hentry
  rw [nextBucket] at hentry ⊢
  split_ifs at hentry ⊢ with hi
  · obtain ⟨rfl, -⟩ := Prod.mk.inj (Option.some.inj hentry)
    simp only
    omega
  · rw [h] at hentry
    cases hentry

theorem lt_of_pending_nextBucket {it : Iterator setting} (hentry : it.currentEntry = none)
    (h : it.nextBucket.Pending s) : it.currentBucketIndex < s.1.val := by
  rw [nextBucket] at h
  split_ifs at h with hi
  · obtain ⟨j, q⟩ := s
    simp only [Pending, slotBefore_iff] at h
    simp only
    omega
  · simp only [Pending, hentry] at h
    omega

theorem Aligned.moveToNextData {it : Iterator setting} (h : it.Aligned)
    (t : SharedHashTable setting) : (it.moveToNextData t).Aligned := by
  intro j entry' hentry
  rw [Iterator.moveToNextData] at hentry ⊢
  split_ifs at hentry ⊢ with hnext
  · exact h j entry' hentry
  · simp only at hentry ⊢
    cases hcurrent : it.currentEntry with
    | none =>
      rw [hcurrent] at hentry
      cases hentry
    | some place =>
      obtain ⟨i, entry⟩ := place
      rw [hcurrent, Option.bind_some] at hentry
      simp only at hentry
      split_ifs at hentry
      obtain ⟨rfl, -⟩ := Prod.mk.inj (Option.some.inj hentry)
      exact h i entry hcurrent

theorem Aligned.cursor_eq {it : Iterator setting} (h : it.Aligned)
    (hentry : it.currentEntry = some (i, entry)) :
    it.cursor = .slot (i, ⟨entry, it.currentRecordIndex⟩) := by
  have hend : ¬ it.IsEnd := by
    have hlt := i.isLt
    rw [IsEnd, h i entry hentry]
    omega
  rw [cursor, if_neg hend, hentry]

theorem Aligned.ahead_of_pending {it : Iterator setting} (h : it.Aligned)
    (hentry : it.currentEntry = some (i, entry)) (t : SharedHashTable setting)
    (hpending : (it.moveToNextData t).Pending s) : it.cursor.Ahead s := by
  obtain ⟨j, q⟩ := s
  have hbucket := h i entry hentry
  have hq : q.index.val < 16 := q.index.isLt
  have hindex : it.currentRecordIndex.val < 16 := it.currentRecordIndex.isLt
  rw [h.cursor_eq hentry]
  change SlotBefore _ _
  simp only [slotBefore_iff]
  rw [Iterator.moveToNextData] at hpending
  split_ifs at hpending with hnext
  · rw [Pending, hentry] at hpending
    simp only [slotBefore_iff] at hpending
    omega
  · have hlast : ¬ it.currentRecordIndex.val + 1 < 16 := hnext
    simp only [hentry, Option.bind_some] at hpending
    split_ifs at hpending with hchain
    · have hzero : (0 : Fin numDataPerEntry).val = 0 := rfl
      simp only [Pending, slotBefore_iff, hzero] at hpending
      omega
    · simp only [Pending] at hpending
      omega

end Iterator

namespace Cache
open Metadata
open Transition (Run)
variable {setting : Setting}

/-- A call of `IsExpired`, for the metadata of a record. -/
structure ExpiryTest where
  curEpochTime : Int
  record : RecordBuffer

/-- Where an iterator stands in `MoveNext`: outside of it, before `MoveToNextData`, or before
a turn of the loop. -/
inductive MovePhase where
  | idle
  | advancing
  | looking

/-- An iterator of a cache that other threads work on. -/
structure MovingIterator (setting : Setting) where
  iterator : CacheIterator setting
  phase : MovePhase

namespace MovingIterator

/-- The start of `MoveNext` of the base. -/
def start (it : CacheIterator setting) : MovingIterator setting :=
  if it.base.IsEnd then ⟨it, .idle⟩
  else if it.base.currentEntry.isSome then ⟨it, .advancing⟩
  else ⟨it, .looking⟩

/-- The steps of `MoveNext`, each with one load from the table, and the test that it makes. -/
def move (options : Options) (t : SharedHashTable setting) :
    MovingIterator setting → MovingIterator setting × Option ExpiryTest
  | ⟨it, .idle⟩ => (start it, none)
  | ⟨it, .advancing⟩ => (⟨{ it with base := it.base.moveToNextData t }, .looking⟩, none)
  | ⟨it, .looking⟩ =>
    match it.base.currentEntry with
    | none =>
      let it := { it with base := it.base.nextBucket }
      (⟨it, if it.base.IsEnd then .idle else .looking⟩, none)
    | some (i, entry) =>
      match t.load (i, ⟨entry, it.base.currentRecordIndex⟩) with
      | none => (⟨{ it with base := { it.base with currentRecord := none } }, .advancing⟩, none)
      | some record =>
        let it := { it with base := { it.base with currentRecord := some record } }
        let metadata := metadataOf setting.cacheRecordSerializer record
        (if isExpired metadata it.currentEpochTime options.recordTimeToLive then start it
          else ⟨it, .idle⟩,
          some ⟨it.currentEpochTime, record⟩)

variable {it : MovingIterator setting}

/-- The slots that the iterator has still to look at. -/
def Ahead (it : MovingIterator setting) (s : setting.Slot) : Prop :=
  match it.phase with
  | .looking => it.iterator.base.Pending s
  | _ => it.iterator.base.cursor.Ahead s

/-- What holds of every iterator. -/
structure Placed (it : MovingIterator setting) : Prop where
  aligned : it.iterator.base.Aligned
  entry : it.phase = .advancing → it.iterator.base.currentEntry ≠ none

theorem placed_start {it : CacheIterator setting} (h : it.base.Aligned) : (start it).Placed := by
  rw [start]
  split_ifs with hend hentry
  · exact ⟨h, fun hphase => by cases hphase⟩
  · exact ⟨h, fun _ => Option.isSome_iff_ne_none.mp hentry⟩
  · exact ⟨h, fun hphase => by cases hphase⟩

theorem currentEpochTime_start (it : CacheIterator setting) :
    (start it).iterator.currentEpochTime = it.currentEpochTime := by
  rw [start]
  split_ifs <;> rfl

theorem ahead_of_start (it : CacheIterator setting) (h : (start it).Ahead s) :
    it.base.cursor.Ahead s := by
  rw [start] at h
  split_ifs at h with hend hentry
  · exact h
  · exact h
  · have hnone : it.base.currentEntry = none := Option.not_isSome_iff_eq_none.mp hentry
    rw [Iterator.cursor, if_neg hend, hnone]
    trivial

/-- After the load of a slot, that slot is no longer ahead. -/
theorem pending_of_ahead {it : Iterator setting} (h : it.Aligned)
    (hentry : it.currentEntry = some (i, entry)) (hahead : it.cursor.Ahead s) : it.Pending s := by
  rw [h.cursor_eq hentry] at hahead
  rw [Iterator.Pending, hentry]
  exact fun hbefore => slotBefore_irrefl s (SlotBefore.trans hbefore hahead)

/-- What a step of `MoveNext` does: it passes slots, keeps its time, and tests a record in a slot
that was ahead. -/
structure Moved (t : SharedHashTable setting) (it : MovingIterator setting)
    (result : MovingIterator setting × Option ExpiryTest) : Prop where
  placed : result.1.Placed
  time : result.1.iterator.currentEpochTime = it.iterator.currentEpochTime
  ahead : ∀ s, result.1.Ahead s → it.Ahead s
  test : ∀ test, result.2 = some test → test.curEpochTime = it.iterator.currentEpochTime ∧
    ∃ s, it.Ahead s ∧ t.load s = some test.record

theorem Placed.moved (h : it.Placed) (options : Options) (t : SharedHashTable setting) :
    Moved t it (it.move options t) := by
  obtain ⟨it, phase⟩ := it
  have haligned : it.base.Aligned := h.aligned
  cases phase with
  | idle =>
    exact ⟨placed_start haligned, currentEpochTime_start it, fun s => ahead_of_start it,
      fun _ htest => by cases htest⟩
  | advancing =>
    obtain ⟨⟨i, entry⟩, hentry⟩ := Option.ne_none_iff_exists'.mp (h.entry rfl)
    exact ⟨⟨haligned.moveToNextData t, fun hphase => by cases hphase⟩, rfl,
      fun s => haligned.ahead_of_pending hentry t, fun _ htest => by cases htest⟩
  | looking =>
    rw [move]
    cases hentry : it.base.currentEntry with
    | none =>
      have haligned' := Iterator.aligned_nextBucket it.base hentry
      refine ⟨⟨haligned', ?_⟩, rfl, fun s hs => ?_, fun _ htest => by cases htest⟩
      · simp only
        split_ifs <;> exact fun hphase => by cases hphase
      · rw [Ahead, Iterator.Pending, hentry]
        simp only at hs ⊢
        split_ifs at hs with hend
        · have hfinish : it.base.nextBucket.cursor = .finish := if_pos hend
          rw [Ahead, hfinish] at hs
          exact hs.elim
        · exact Iterator.lt_of_pending_nextBucket hentry hs
    | some place =>
      obtain ⟨i, entry⟩ := place
      simp only
      have hpending (s : setting.Slot) (hs : it.base.cursor.Ahead s) : it.base.Pending s :=
        pending_of_ahead haligned hentry hs
      cases hload : t.load (i, ⟨entry, it.base.currentRecordIndex⟩) with
      | none =>
        refine ⟨⟨haligned, fun _ => ?_⟩, rfl, hpending, fun _ htest => by cases htest⟩
        rw [hentry]
        exact Option.some_ne_none _
      | some record =>
        have hat : it.base.Pending (i, ⟨entry, it.base.currentRecordIndex⟩) := by
          rw [Iterator.Pending, hentry]
          exact slotBefore_irrefl _
        simp only
        split_ifs with hexpired
        · refine ⟨placed_start haligned, currentEpochTime_start _, fun s hs => ?_,
            fun test htest => ?_⟩
          · have hahead := ahead_of_start _ hs
            exact hpending s hahead
          · obtain rfl := Option.some.inj htest
            exact ⟨rfl, _, hat, hload⟩
        · refine ⟨⟨haligned, fun hphase => by cases hphase⟩, rfl, hpending, fun test htest => ?_⟩
          obtain rfl := Option.some.inj htest
          exact ⟨rfl, _, hat, hload⟩

theorem move_of_load (options : Options) {t : SharedHashTable setting} (it : CacheIterator setting)
    (hentry : it.base.currentEntry = some (i, entry))
    (hload : t.load (i, ⟨entry, it.base.currentRecordIndex⟩) = some record) :
    ∃ it', move options t ⟨it, .looking⟩ = (it', some ⟨it.currentEpochTime, record⟩) := by
  simp only [move, hentry, hload]
  exact ⟨_, rfl⟩

section Alone
variable (options : Options) (t : SharedHashTable setting)

/-- The steps of an iterator over a table that nobody changes. -/
def Moves (it : MovingIterator setting) (test : Option ExpiryTest) (it' : MovingIterator setting) :
    Prop := it.move options t = (it', test)

/-- After `MoveNext` of the base, the record that it has found is tested. -/
def found (more : Bool) (it : CacheIterator setting) : MovingIterator setting :=
  match more, it.base.currentRecord with
  | true, some record =>
    if isExpired (metadataOf setting.cacheRecordSerializer record) it.currentEpochTime
        options.recordTimeToLive then start it
    else ⟨it, .idle⟩
  | _, _ => ⟨it, .idle⟩

variable {options t}

theorem run_moveNextLoop (options : Options) (time : Int) {it : Iterator setting}
    (hplace : Iterator.WellPlaced t it)
    (hloop : it.moveNextLoop t turns = some (more, it')) :
    ∃ tests, Run (Moves options t) ⟨⟨it, time⟩, .looking⟩ tests
      (found options more ⟨it', time⟩) := by
  induction turns generalizing it with
  | zero => cases hloop
  | succ turns ih =>
    rw [Iterator.moveNextLoop] at hloop
    cases hentry : it.currentEntry with
    | none =>
      rw [Iterator.WellPlaced, hentry] at hplace
      have hplaced : -1 ≤ it.currentBucketIndex ∧
        it.currentBucketIndex < setting.numBuckets.toNat := hplace
      simp only [hentry] at hloop
      split_ifs at hloop with hin
      · have hnext : it.nextBucket = ⟨it.currentBucketIndex + 1, 0,
            some (⟨(it.currentBucketIndex + 1).toNat, hin.2⟩, 0), it.currentRecord⟩ := dif_pos hin
        have hcast : it.currentBucketIndex + 1 = ((it.currentBucketIndex + 1).toNat : Int) := by
          omega
        have hend : ¬ it.nextBucket.IsEnd := by
          rw [hnext, Iterator.IsEnd]
          simp only
          omega
        rw [← hnext] at hloop
        have hplace' : Iterator.WellPlaced t it.nextBucket := by
          rw [hnext]
          exact ⟨hcast, Bucket.chainLength_pos _⟩
        obtain ⟨tests, hrun⟩ := ih hplace' hloop
        refine ⟨none :: tests, .cons ?_ hrun⟩
        simp only [Moves, move, hentry, if_neg hend]
      · have hnext : it.nextBucket = ⟨it.currentBucketIndex + 1, 0, it.currentEntry,
            it.currentRecord⟩ := dif_neg hin
        have hend : it.nextBucket.IsEnd := by
          rw [hnext, Iterator.IsEnd]
          simp only
          omega
        obtain ⟨rfl, rfl⟩ := Prod.mk.inj (Option.some.inj hloop)
        refine ⟨[none], .single ?_⟩
        simp only [Moves, move, hentry, if_pos hend]
        rw [hnext, hentry]
        rfl
    | some place =>
      obtain ⟨i, entry⟩ := place
      rw [Iterator.WellPlaced, hentry] at hplace
      simp only [hentry] at hloop
      cases hload : t.load (i, ⟨entry, it.currentRecordIndex⟩) with
      | some record =>
        simp only [hload] at hloop
        obtain ⟨rfl, rfl⟩ := Prod.mk.inj (Option.some.inj hloop)
        refine ⟨[some ⟨time, record⟩], .single ?_⟩
        simp only [Moves, move, found, hentry, hload]
      | none =>
        simp only [hload] at hloop
        let it₁ : Iterator setting := { it with currentRecord := none }
        have hpassed : Iterator.Passed t it₁ _ _ :=
          Iterator.passed_moveToNextData hentry hplace.1 hplace.2
        obtain ⟨tests, hrun⟩ := ih hpassed.wellPlaced (by simp only [it₁, hentry, hloop])
        have hadvance : Moves options t ⟨⟨it₁, time⟩, .advancing⟩ none
            ⟨⟨it₁.moveToNextData t, time⟩, .looking⟩ := rfl
        refine ⟨none :: none :: tests, .cons ?_ (.cons hadvance hrun)⟩
        simp only [Moves, move, hentry, hload, it₁]

theorem run_start (options : Options) {it : CacheIterator setting} (h : it.base.At c)
    (hc : c.Inside t) :
    ∃ tests, Run (Moves options t) (start it) tests
      (found options (it.base.moveNext t).1 { it with base := (it.base.moveNext t).2 }) := by
  by_cases hend : it.base.IsEnd
  · have hmove : it.base.moveNext t = (false, it.base) := if_pos hend
    rw [start, if_pos hend, hmove]
    exact ⟨[], .nil⟩
  · obtain ⟨hplace, result, hloop, -, hmove⟩ := Iterator.wellPlaced_enter h hc hend
    rw [start, if_neg hend, hmove]
    cases hentry : it.base.currentEntry with
    | none =>
      rw [hentry, Option.isSome_none, if_neg Bool.false_ne_true] at hplace hloop
      rw [Option.isSome_none, if_neg Bool.false_ne_true]
      exact run_moveNextLoop options it.currentEpochTime hplace hloop
    | some place =>
      rw [hentry, Option.isSome_some, if_pos rfl] at hplace hloop
      rw [Option.isSome_some, if_pos rfl]
      obtain ⟨tests, hrun⟩ := run_moveNextLoop options it.currentEpochTime hplace hloop
      have hadvance : Moves options t ⟨it, .advancing⟩ none
          ⟨⟨it.base.moveToNextData t, it.currentEpochTime⟩, .looking⟩ := rfl
      exact ⟨none :: tests, .cons hadvance hrun⟩

theorem run_cacheLoop {it : CacheIterator setting}
    (hvalues : ∀ s record, t.load s = some record →
      metaDataSize.toNat < (setting.cacheRecordSerializer.valueOf record).size)
    (h : it.base.At c) (hc : c.Inside t) (hturns : (t.recordsAhead c).length < turns)
    (hloop : CacheIterator.moveNextLoop options t it.currentEpochTime turns it.base =
      .ok (more, base)) :
    ∃ tests, Run (Moves options t) (start it) tests ⟨{ it with base }, .idle⟩ := by
  induction turns generalizing it c with
  | zero => exact absurd hturns (Nat.not_lt_zero _)
  | succ turns ih =>
    obtain ⟨tests, hrun⟩ := run_start options h hc
    have hmoved := Iterator.moved_moveNext h hc
    rw [CacheIterator.moveNextLoop] at hloop
    cases hresult : it.base.moveNext t with
    | mk found base₁ =>
      rw [hresult] at hmoved hrun hloop
      cases hmoved with
      | found s record _ hahead hload hfirst hat hrecord =>
        have hsame := isExpired_valueOf (hvalues s record hload) it.currentEpochTime
          options.recordTimeToLive
        simp only [hat.getRecord_slot hrecord] at hloop
        rw [← RecordSerializer.valueOf, hsame] at hloop
        simp only [MovingIterator.found, hrecord] at hrun
        split_ifs at hloop hrun with hexpired
        · rw [SharedHashTable.recordsAhead_found hahead hload hfirst, List.length_cons] at hturns
          have hinside : (Cursor.slot s).Inside t := Cursor.inside_of_load hload
          obtain ⟨tests', hrest⟩ : ∃ tests, Run (Moves options t) (start { it with base := base₁ })
              tests ⟨{ it with base }, .idle⟩ :=
            ih hat hinside (Nat.lt_of_succ_lt_succ hturns) hloop
          exact ⟨_, hrun.append hrest⟩
        · obtain ⟨rfl, rfl⟩ := Prod.mk.inj (Except.ok.inj hloop)
          exact ⟨tests, hrun⟩
      | ended _ hnone hat =>
        obtain ⟨rfl, rfl⟩ := Prod.mk.inj (Except.ok.inj hloop)
        exact ⟨tests, hrun⟩

/-- On a table that nobody changes, the steps of a call of `MoveNext` lead to its outcome. -/
theorem run_moveNext {it it' : CacheIterator setting}
    (hvalues : ∀ s record, t.load s = some record →
      metaDataSize.toNat < (setting.cacheRecordSerializer.valueOf record).size)
    (h : it.base.At c) (hc : c.Inside t) (hmove : it.moveNext options t = .ok (more, it')) :
    ∃ tests, Run (Moves options t) ⟨it, .idle⟩ tests ⟨it', .idle⟩ := by
  rw [CacheIterator.moveNext] at hmove
  cases hloop : CacheIterator.moveNextLoop options t it.currentEpochTime (t.records.length + 1)
      it.base with
  | error e =>
    rw [hloop] at hmove
    cases hmove
  | ok result =>
    rw [hloop] at hmove
    obtain ⟨rfl, rfl⟩ := Prod.mk.inj (Except.ok.inj hmove)
    have hturns := Nat.lt_succ_of_le (SharedHashTable.length_recordsAhead_le t c)
    obtain ⟨tests, hrun⟩ := run_cacheLoop hvalues h hc hturns hloop
    exact ⟨none :: tests, .cons rfl hrun⟩

end Alone

end MovingIterator

end Cache

end L4
