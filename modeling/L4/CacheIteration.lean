import L4.CacheCounters
import L4.Loading

namespace L4.Cache
set_option autoImplicit true
open Metadata
variable {setting : Setting} {options : Options}

/-- The calls of `MoveNext` of one iterator until it returns `false`, and what `GetKey` and
`GetValue` give after each of the others. -/
inductive Iterates [Platform] (options : Options) (iterator : Nat) :
    Session setting → List Record → Session setting → Prop
  | ended (hmove : s.call options (.moveNext iterator) = (s', .ok (.moved false))) :
      Iterates options iterator s [] s'
  | next (it : CacheIterator setting)
      (hmove : s.call options (.moveNext iterator) = (s', .ok (.moved true)))
      (hit : s'.iterators[iterator]? = some it) (hrecord : it.getRecord = .ok record)
      (hrest : Iterates options iterator s' records s'') :
      Iterates options iterator s (record :: records) s''

/-- What a user sees of a record. -/
def userRecord (setting : Setting) (record : RecordBuffer) : Record :=
  ⟨setting.cacheRecordSerializer.keyOf record,
    withoutMetadata (setting.cacheRecordSerializer.valueOf record)⟩

section Iterator
variable (options) (now : Int) (t : SharedHashTable setting)

/-- The records ahead of a cursor that are not expired. -/
def liveAhead (c : Cursor setting) : List RecordBuffer :=
  (t.recordsAhead c).filter fun record =>
    !isExpired (metadataOf setting.cacheRecordSerializer record) now options.recordTimeToLive

/-- The outcome of the loop of `MoveNext`: the first record ahead that is not expired, or the
end. -/
inductive LiveMoved (c : Cursor setting) : Except Failure (Bool × Iterator setting) → Prop
  | found (s : setting.Slot) (record : RecordBuffer) (it : Iterator setting) (hat : it.At (.slot s))
      (hload : t.load s = some record) (hrecord : it.currentRecord = some record)
      (hnext : liveAhead options now t c = record :: liveAhead options now t (.slot s)) :
      LiveMoved c (.ok (true, it))
  | ended (it : Iterator setting) (hnone : liveAhead options now t c = []) :
      LiveMoved c (.ok (false, it))

variable {options now t}

theorem LiveMoved.skip {c : Cursor setting} (h : LiveMoved options now t c' result)
    (heq : liveAhead options now t c = liveAhead options now t c') :
    LiveMoved options now t c result := by
  cases h with
  | found s record it hat hload hrecord hnext =>
    exact .found s record it hat hload hrecord (heq.trans hnext)
  | ended it hnone => exact .ended it (heq.trans hnone)

theorem liveMoved_moveNextLoop (options : Options) (now : Int) {it : Iterator setting}
    {c : Cursor setting}
    (hvalues : ∀ s record, t.load s = some record →
      metaDataSize.toNat < (setting.cacheRecordSerializer.valueOf record).size)
    (h : it.At c) (hc : c.Inside t) (hturns : (t.recordsAhead c).length < turns) :
    LiveMoved options now t c (CacheIterator.moveNextLoop options t now turns it) := by
  induction turns generalizing it c with
  | zero => exact absurd hturns (Nat.not_lt_zero _)
  | succ turns ih =>
    have hmoved := Iterator.moved_moveNext h hc
    rw [CacheIterator.moveNextLoop]
    cases hresult : it.moveNext t with
    | mk more it' =>
      rw [hresult] at hmoved
      cases hmoved with
      | found s record _ hahead hload hfirst hat hrecord =>
        have hrecords := SharedHashTable.recordsAhead_found hahead hload hfirst
        have hsame := isExpired_valueOf (hvalues s record hload) now options.recordTimeToLive
        simp only [hat.getRecord_slot hrecord]
        rw [← RecordSerializer.valueOf, hsame]
        split_ifs with hexpired
        · refine LiveMoved.skip (ih hat (Cursor.inside_of_load hload) ?_) ?_
          · rw [hrecords, List.length_cons] at hturns
            omega
          · rw [liveAhead, hrecords, List.filter_cons_of_neg (by simp [hexpired])]
            rfl
        · refine .found s record it' hat hload hrecord ?_
          rw [liveAhead, hrecords, List.filter_cons_of_pos (by simp [hexpired])]
          rfl
      | ended _ hnone hat =>
        refine .ended it' ?_
        rw [liveAhead, SharedHashTable.recordsAhead_ended hnone]
        rfl

end Iterator

section Iterates
variable [Platform] {s : Session setting} {now : Int}

theorem moveNext_eq (options : Options) {it : CacheIterator setting}
    (hit : s.iterators[iterator]? = some it) {base : Iterator setting}
    (hloop : CacheIterator.moveNextLoop options s.table.base.hashTable it.currentEpochTime
      (s.table.base.hashTable.records.length + 1) it.base = .ok (more, base)) :
    s.call options (.moveNext iterator) =
      ({ s with iterators := s.iterators.set iterator { it with base } }, .ok (.moved more)) := by
  have hmove : it.moveNext options s.table.base.hashTable = .ok (more, { it with base }) := by
    rw [CacheIterator.moveNext, hloop]
    rfl
  simp only [Session.call, Session.moveNext, hit, hmove]

/-- An iterator gives the records ahead of it that are not expired, one after the other. -/
theorem iterates_ahead (options : Options) (now : Int) {it : CacheIterator setting}
    {c : Cursor setting}
    (hvalues : ∀ slot record, s.table.base.hashTable.load slot = some record →
      metaDataSize.toNat < (setting.cacheRecordSerializer.valueOf record).size)
    (hit : s.iterators[iterator]? = some it) (hnow : it.currentEpochTime = now)
    (h : it.base.At c) (hc : c.Inside s.table.base.hashTable)
    (hrecords : liveAhead options now s.table.base.hashTable c = records) :
    ∃ s', Iterates options iterator s (records.map (userRecord setting)) s' ∧
      s'.table = s.table := by
  induction records generalizing s it c with
  | nil =>
    have hloop := liveMoved_moveNextLoop options now hvalues h hc
      (Nat.lt_succ_of_le (SharedHashTable.length_recordsAhead_le _ c))
    generalize hresult : CacheIterator.moveNextLoop options s.table.base.hashTable now _ it.base =
      result at hloop
    subst hnow
    cases hloop with
    | found slot record it' hat hload hrecord hnext =>
      rw [hnext] at hrecords
      cases hrecords
    | ended it' hnone => exact ⟨_, .ended (moveNext_eq options hit hresult), rfl⟩
  | cons first rest ih =>
    have hloop := liveMoved_moveNextLoop options now hvalues h hc
      (Nat.lt_succ_of_le (SharedHashTable.length_recordsAhead_le _ c))
    generalize hresult : CacheIterator.moveNextLoop options s.table.base.hashTable now _ it.base =
      result at hloop
    subst hnow
    cases hloop with
    | found slot record it' hat hload hrecord hnext =>
      rw [hnext] at hrecords
      obtain ⟨rfl, hrest⟩ := List.cons.inj hrecords
      have hlt : iterator < s.iterators.length := (List.getElem?_eq_some_iff.mp hit).1
      have hit' : (s.iterators.set iterator { it with base := it' })[iterator]? =
          some { it with base := it' } := List.getElem?_set_self hlt
      obtain ⟨s', hiterates, htable⟩ := ih
        (s := { s with iterators := s.iterators.set iterator { it with base := it' } })
        hvalues hit' rfl hat (Cursor.inside_of_load hload) hrest
      refine ⟨s', .next { it with base := it' } (moveNext_eq options hit hresult) hit' ?_
        hiterates, htable⟩
      rw [CacheIterator.getRecord, hat.getRecord_slot hrecord]
      rfl
    | ended it' hnone =>
      rw [hnone] at hrecords
      cases hrecords

theorem Iterates.unique {s s' s'' : Session setting} (h : Iterates options iterator s records s')
    (h' : Iterates options iterator s records' s'') : records' = records ∧ s'' = s' := by
  induction h generalizing records' with
  | ended hmove =>
    cases h' with
    | ended hmove' =>
      rw [hmove] at hmove'
      exact ⟨rfl, (congrArg Prod.fst hmove').symm⟩
    | next it hmove' hit hrecord hrest =>
      rw [hmove] at hmove'
      cases hmove'
  | next it hmove hit hrecord hrest ih =>
    cases h' with
    | ended hmove' =>
      rw [hmove] at hmove'
      cases hmove'
    | next it' hmove' hit' hrecord' hrest' =>
      rw [hmove] at hmove'
      cases hmove'
      obtain rfl := Option.some.inj (hit.symm.trans hit')
      obtain rfl := Except.ok.inj (hrecord.symm.trans hrecord')
      obtain ⟨rfl, rfl⟩ := ih hrest'
      exact ⟨rfl, rfl⟩

/-- Without writes in between, an iterator and `Get` agree at every time: the iteration ends, each
pair comes once, the pairs are those that `Get` returns, and the table is as it was. -/
theorem iterator_agrees_with_get (options : Options) (s : Session setting)
    (hconsistent : s.table.base.hashTable.Consistent setting.cacheRecordSerializer)
    (hvalues : ∀ slot record, s.table.base.hashTable.load slot = some record →
      metaDataSize.toNat < (setting.cacheRecordSerializer.valueOf record).size) (now : Int) :
    (∃ records s', Iterates options s.iterators.length (s.call options (.getIterator now)).1
      records s') ∧
    ∀ records s', Iterates options s.iterators.length (s.call options (.getIterator now)).1
        records s' →
      records.Nodup ∧
      (∀ key value, ⟨key, value⟩ ∈ records ↔
        (s.call options (.get key now)).2 = .ok (.got (some value))) ∧
      s'.table = s.table := by
  have hit : (s.call options (.getIterator now)).1.iterators[s.iterators.length]? =
      some (.create now) := by
    simp [Session.call]
  have hstart : liveAhead options now s.table.base.hashTable .start =
      s.table.base.hashTable.records.filter fun record =>
        !isExpired (metadataOf setting.cacheRecordSerializer record) now
          options.recordTimeToLive :=
    congrArg _ (SharedHashTable.recordsAhead_start _)
  obtain ⟨s', hiterates, htable⟩ := iterates_ahead options now
    (s := (s.call options (.getIterator now)).1) (c := .start) hvalues hit rfl ⟨rfl, rfl⟩ trivial
    hstart
  refine ⟨⟨_, s', hiterates⟩, ?_⟩
  intro records s'' hiterates'
  obtain ⟨rfl, rfl⟩ := hiterates.unique hiterates'
  refine ⟨?_, ?_, htable⟩
  · have hkeys := hconsistent.pairwise_keys
    rw [SharedHashTable.keyValues, List.pairwise_map] at hkeys
    rw [List.Nodup, List.pairwise_map]
    apply (hkeys.sublist List.filter_sublist).imp
    intro record record' hne heq
    have hkey : (userRecord setting record).key = (userRecord setting record').key :=
      congrArg Record.key heq
    exact hne hkey
  · intro key value
    have hget : (s.call options (.get key now)).2 = .ok (.got (some value)) ↔
        (s.table.get options key now).2 = .ok (some value) := by
      simp only [Session.call]
      cases (s.table.get options key now).2 <;> simp [Except.map]
    rw [hget, WritableHashTable.get_eq_some_iff options hconsistent, List.mem_map]
    constructor
    · rintro ⟨record, hmem, heq⟩
      obtain ⟨hmem, hlive⟩ := List.mem_filter.mp hmem
      obtain ⟨slot, hload⟩ := SharedHashTable.mem_records.mp hmem
      obtain ⟨hkey, hvalue⟩ := Record.mk.inj heq
      exact ⟨slot, record, hload, hkey, by simpa using hlive, hvalue⟩
    · rintro ⟨slot, record, hload, rfl, hlive, rfl⟩
      exact ⟨record, List.mem_filter.mpr ⟨SharedHashTable.mem_records.mpr ⟨slot, hload⟩,
        by simpa using hlive⟩, rfl⟩

omit [Platform] in
/-- At time 12, of two records that live for ten seconds the one that was added first is expired. -/
theorem iterator_agrees_with_get_of_expired :
    let platform : Platform := ⟨fun _ => (7, 0), 8, 64⟩
    let options : Options := ⟨1048576, 10, false⟩
    let key : Key := ⟨[5], by decide⟩
    let key' : Key := ⟨[6], by decide⟩
    let s := ((Session.create {} ⟨0, []⟩ ⟨0, ⟨0, 0, [0], by decide⟩, ⟨[.empty], 0⟩⟩).run options
      [.add key ⟨[1], by decide⟩ ⟨0, 1, 1⟩, .add key' ⟨[2], by decide⟩ ⟨2, 3, 3⟩]).1
    ∃ records s', Iterates options s.iterators.length (s.call options (.getIterator 12)).1
      records s' ∧ records.Nodup ∧ ⟨key', ⟨[2], by decide⟩⟩ ∈ records ∧
      ⟨key, ⟨[1], by decide⟩⟩ ∉ records := by
  intro platform options key key' s
  have haccounted : Accounted s.table.base.hashTable :=
    accounted_session {} ⟨0, []⟩ ⟨0, ⟨0, 0, [0], by decide⟩, ⟨[.empty], 0⟩⟩ options _
      (by decide)
  have hrecords : ∀ record ∈ s.table.base.hashTable.records,
      metaDataSize.toNat < ((Setting.cacheRecordSerializer {}).valueOf record).size := by
    decide +kernel
  have hvalues : ∀ slot record, s.table.base.hashTable.load slot = some record →
      metaDataSize.toNat < ((Setting.cacheRecordSerializer {}).valueOf record).size :=
    fun slot record hload => hrecords record (SharedHashTable.mem_records.mpr ⟨slot, hload⟩)
  have hlive : (s.call options (.get key' 12)).2 = .ok (.got (some ⟨[2], by decide⟩)) := by
    decide +kernel
  have hexpired : (s.call options (.get key 12)).2 ≠ .ok (.got (some ⟨[1], by decide⟩)) := by
    decide +kernel
  obtain ⟨⟨records, s', hiterates⟩, hagree⟩ :=
    iterator_agrees_with_get options s haccounted.sound.consistent hvalues 12
  obtain ⟨hnodup, hget, -⟩ := hagree records s' hiterates
  exact ⟨records, s', hiterates, hnodup, (hget _ _).mpr hlive,
    fun hmem => hexpired ((hget _ _).mp hmem)⟩

end Iterates

end L4.Cache
