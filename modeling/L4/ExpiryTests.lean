import L4.ClockedThreadSteps

namespace L4.ClockedThreads
set_option autoImplicit true
open SharedHashTable (bucketOf)
open TableThreads (getBucketInfo_eq_ok)
open Cache (Options ExpiryTest MovingIterator Sound metadataOf)
open Cache.Metadata (getEpochTime)
open Transition (Run Guarded)
variable {setting : Setting} {options : Options}

section System
variable [Platform] {p p' : System setting options}

/-- A thread has still to look at a slot, with the time that it has read. -/
def Thread.MayVisit (hand : UInt64) (s : setting.Slot) (time : Int) (th : Thread setting) : Prop :=
  ClockedThreads.MayVisit hand s time th.base.phase ∨ th.held = .curEpochTime time ∧
    ∃ record, th.base.phase = .evictingBasedOnTime record ∧ s.1.val = bucketOf setting record.key

/-- Somebody has still to look at a slot, with a time that he has read. -/
def System.MayVisit (p : System setting options) (s : setting.Slot) (time : Int) : Prop :=
  (∃ th ∈ p.threads, th.MayVisit p.table.currentEvictBucketIndex s time) ∨
    ∃ it ∈ p.iterators, it.iterator.currentEpochTime = time ∧ it.Ahead s

/-- A record is published only in a slot that nobody has still to look at with a time before that of
its creation. -/
def PublishesAhead (p : System setting options) : Label setting → Prop
  | .thread (.publish s recordToAdd _) _ =>
    ∀ time, p.MayVisit s time → createdAt setting recordToAdd ≤ time
  | _ => True

/-- The records that a thread holds have been created before. -/
structure Thread.Past (now : Int) (th : Thread setting) : Prop where
  carries : th.base.phase.Carries (fun _ => True) (createdAt setting · ≤ now)
  data : ∀ s record, th.held = .data s record → createdAt setting record ≤ now

/-- What holds between two steps, if records are published ahead of nobody: who has still to look at
a slot has a time that is not before the creation of the record there. -/
structure Timed (p : System setting options) : Prop where
  pos : 0 ≤ p.now
  lt : p.now < 2 ^ 31
  sound : Sound setting.cacheRecordSerializer (createdAt setting · ≤ p.now) p.table.hashTable
  past : ∀ th ∈ p.threads, th.Past p.now
  placed : ∀ it ∈ p.iterators, it.Placed
  exclusive : p.threads.Pairwise fun th th' =>
    th.base.phase.holdsEvictMutex = false ∨ th'.base.phase.holdsEvictMutex = false
  visits : ∀ s record time, p.table.hashTable.load s = some record → p.MayVisit s time →
    createdAt setting record ≤ time

omit [Platform] in
theorem Thread.Past.mono {th : Thread setting} (h : th.Past now) (hle : now ≤ now') :
    th.Past now' where
  carries := by
    have hcarries := h.carries
    cases hphase : th.base.phase with
    | adding recordToAdd =>
      rw [hphase] at hcarries
      exact Int.le_trans hcarries hle
    | _ => trivial
  data s record hheld := Int.le_trans (h.data s record hheld) hle

theorem mayVisit_of_own {others : List (Thread setting)}
    {t t' : Table (CacheConfig setting options)} {th th' : Thread setting}
    (h : Act options now others t th label t' th')
    (hvisit : th'.MayVisit t'.currentEvictBucketIndex s time) :
    th.MayVisit t.currentEvictBucketIndex s time ∨ time = now := by
  cases h with
  | base hact htimely =>
    rcases hvisit with hvisit | ⟨hheld, -⟩
    · exact (mayVisit_of_act hact htimely hvisit).imp_left .inl
    · cases hheld
  | readClock hinfo =>
    rcases hvisit with hvisit | ⟨hheld, -⟩
    · exact hvisit.elim
    · exact .inr (Held.curEpochTime.inj hheld).symm
  | lockBucket hinfo hlock =>
    rcases hvisit with ⟨htime, hbucket, -⟩ | ⟨hheld, -⟩
    · refine .inl (.inr ⟨by rw [htime], _, rfl, ?_⟩)
      rw [hbucket]
      exact (getBucketInfo_eq_ok hinfo).1
    · cases hheld
  | getFinds hload hkey =>
    rcases hvisit with hvisit | ⟨hheld, -⟩
    · exact hvisit.elim
    · cases hheld
  | getExpired hexpired =>
    rcases hvisit with hvisit | ⟨hheld, -⟩
    · exact hvisit.elim
    · cases hheld
  | getHits hfresh =>
    rcases hvisit with hvisit | ⟨hheld, -⟩
    · exact hvisit.elim
    · cases hheld

section Own
variable {others : List (Thread setting)} {t t' : Table (CacheConfig setting options)}
  {th th' : Thread setting} {label : Label setting}

theorem Act.hand (h : Act options now others t th label t' th') :
    t'.currentEvictBucketIndex = t.currentEvictBucketIndex ∨
      th.base.phase.holdsEvictMutex = true := by
  cases h with
  | base hact htimely => exact hand_of_act hact
  | _ => exact .inl rfl

theorem Act.holdsEvictMutex (h : Act options now others t th label t' th')
    (hholds : th'.base.phase.holdsEvictMutex = true) :
    th.base.phase.holdsEvictMutex = true ∨
      ∀ x ∈ others, x.base.phase.holdsEvictMutex = false := by
  cases h with
  | base hact htimely =>
    refine (holdsEvictMutex_of_act hact hholds).imp_right fun hfree x hx => ?_
    exact hfree x.base (List.mem_map_of_mem hx)
  | _ => cases hholds

theorem Act.sound (h : Act options now others t th label t' th') (hth : th.Past now)
    (hs : Sound setting.cacheRecordSerializer (createdAt setting · ≤ now) t.hashTable) :
    Sound setting.cacheRecordSerializer (createdAt setting · ≤ now) t'.hashTable := by
  cases h with
  | base hact htimely => exact hact.sound (keptByAccess_createdAt setting now) hs hth.carries
  | _ => exact hs

theorem Act.past (h : Act options now others t th label t' th') (hpos : 0 ≤ now)
    (hlt : now < 2 ^ 31) (hth : th.Past now)
    (hs : Sound setting.cacheRecordSerializer (createdAt setting · ≤ now) t.hashTable) :
    th'.Past now := by
  cases h with
  | base hact htimely =>
    exact ⟨carries_of_act hact htimely hpos hlt hth.carries, fun _ _ hheld => by cases hheld⟩
  | getFinds hload hkey =>
    refine ⟨trivial, fun s record hheld => ?_⟩
    obtain ⟨rfl, rfl⟩ := Held.data.inj hheld
    exact hs.holds _ _ hload
  | _ => exact ⟨trivial, fun _ _ hheld => by cases hheld⟩

/-- A record after a step has been there, or is published ahead of everybody. -/
theorem Act.created_le (h : Act options now others t th label t' th')
    (hs : t.hashTable.Consistent setting.cacheRecordSerializer)
    (hload : t'.hashTable.load s = some record)
    (hpublish : ∀ old test, label = .thread (.publish s record old) test →
      createdAt setting record ≤ time)
    (hold : ∀ record, t.hashTable.load s = some record → createdAt setting record ≤ time) :
    createdAt setting record ≤ time := by
  cases h with
  | base hact htimely =>
    rcases load_of_act hact hs hload with ⟨record', hload', hcreated⟩ | ⟨old, rfl⟩
    · rw [hcreated]
      exact hold record' hload'
    · exact hpublish old _ rfl
  | _ => exact hold record hload

end Own

theorem Timed.mayVisit_of_act {th th' : Thread setting}
    (h : Timed (⟨now, table, before ++ th :: after, iterators⟩ : System setting options))
    (hact : Act options now (before ++ after) table th label table' th')
    (hvisit : System.MayVisit ⟨now, table', before ++ th' :: after, iterators⟩ s time) :
    System.MayVisit ⟨now, table, before ++ th :: after, iterators⟩ s time ∨ time = now := by
  rcases hvisit with ⟨x, hx, hvisit⟩ | hvisit
  · rcases List.mem_cons.mp (List.perm_middle.mem_iff.mp hx) with rfl | hx
    · refine (mayVisit_of_own hact hvisit).imp_left fun hown => .inl ⟨th, ?_, hown⟩
      exact List.mem_append_right _ List.mem_cons_self
    · refine .inl (.inl ⟨x, ThreadPool.mem_of_others hx th, hvisit.imp_left fun hphase => ?_⟩)
      rcases hact.hand with hhand | hholds
      · rw [← hhand]
        exact hphase
      · have hexclusive := List.pairwise_cons.mp
          ((List.pairwise_middle Or.symm).mp h.exclusive)
        have hfree := (hexclusive.1 x hx).resolve_left (by rw [hholds]; exact Bool.noConfusion)
        exact mayVisit_of_hand hfree hphase _
  · exact .inl (.inr hvisit)

theorem Timed.thread
    (h : Timed (⟨now, table, threads, iterators⟩ : System setting options))
    (hstep : ThreadPool.Step (Act options now) ⟨table, threads⟩ label ⟨table', threads'⟩)
    (hahead : PublishesAhead ⟨now, table, threads, iterators⟩ label) :
    Timed (⟨now, table', threads', iterators⟩ : System setting options) := by
  have hpast : ∀ th ∈ threads', th.Past now := hstep.forall (I := fun _ th => th.Past now)
    (fun others th s' th' hact hth => hact.past h.pos h.lt hth h.sound)
    (fun others th s' th' hact x hx hmem hpast => hpast) h.past
  have hexclusive := hstep.pairwise Or.symm (fun others s' th' th hmem hact x hx hfree => by
    rcases Bool.eq_false_or_eq_true th'.base.phase.holdsEvictMutex with hholds | hnot
    · refine .inr ?_
      rcases hact.holdsEvictMutex hholds with hheld | hothers
      · exact hfree.resolve_left (by rw [hheld]; exact Bool.noConfusion)
      · exact hothers x hx
    · exact .inl hnot) h.exclusive
  cases hstep with
  | @intro _ th _ _ th' before after hact =>
    have hmem : th ∈ before ++ th :: after := List.mem_append_right _ List.mem_cons_self
    have hs' := hact.sound (h.past th hmem) h.sound
    refine ⟨h.pos, h.lt, hs', hpast, h.placed, hexclusive, ?_⟩
    intro s record time hload hvisit
    rcases h.mayVisit_of_act hact hvisit with hmay | rfl
    · refine hact.created_le h.sound.consistent hload (fun old test hlabel => ?_)
        fun record hold => h.visits s record time hold hmay
      rw [hlabel] at hahead
      exact hahead time hmay
    · exact hs'.holds s record hload

theorem Timed.moveNext
    (h : Timed (⟨now, table, threads, iterators⟩ : System setting options))
    (hstep : ThreadPool.Step (Move options) ⟨table, iterators⟩ label ⟨table', iterators'⟩) :
    Timed (⟨now, table', threads, iterators'⟩ : System setting options) := by
  cases hstep with
  | @intro _ it _ _ it' before after hact =>
    have hmem : it ∈ before ++ it :: after := List.mem_append_right _ List.mem_cons_self
    cases hact with
    | move hmove =>
      have hmoved := (h.placed it hmem).moved options table.hashTable
      rw [hmove] at hmoved
      refine ⟨h.pos, h.lt, h.sound, h.past, fun x hx => ?_, h.exclusive, ?_⟩
      · rcases List.mem_cons.mp (List.perm_middle.mem_iff.mp hx) with rfl | hx
        · exact hmoved.placed
        · exact h.placed x (ThreadPool.mem_of_others hx it)
      · intro s record time hload hvisit
        refine h.visits s record time hload (hvisit.imp_right ?_)
        rintro ⟨x, hx, htime, hahead⟩
        rcases List.mem_cons.mp (List.perm_middle.mem_iff.mp hx) with rfl | hx
        · exact ⟨it, hmem, hmoved.time.symm.trans htime, hmoved.ahead s hahead⟩
        · exact ⟨x, ThreadPool.mem_of_others hx it, htime, hahead⟩

theorem Timed.step (h : Timed p) (hstep : Guarded PublishesAhead Step p label p') : Timed p' := by
  obtain ⟨hahead, hstep⟩ := hstep
  cases hstep with
  | tick time hle hlt =>
    refine ⟨Int.le_trans h.pos hle, hlt, h.sound.mono fun _ _ _ hcreated => ?_,
      fun th hth => (h.past th hth).mono hle, h.placed, h.exclusive, h.visits⟩
    exact Int.le_trans hcreated hle
  | thread hstep => exact h.thread hstep hahead
  | getIterator =>
    refine ⟨h.pos, h.lt, h.sound, h.past, fun it hit => ?_, h.exclusive, ?_⟩
    · rcases List.mem_append.mp hit with hit | hit
      · exact h.placed it hit
      · rw [List.mem_singleton.mp hit]
        exact ⟨fun _ _ hentry => (by cases hentry), fun hphase => by cases hphase⟩
    · intro s record time hload hvisit
      rcases hvisit with hvisit | ⟨it, hit, htime, hahead⟩
      · exact h.visits s record time hload (.inl hvisit)
      · rcases List.mem_append.mp hit with hit | hit
        · exact h.visits s record time hload (.inr ⟨it, hit, htime, hahead⟩)
        · rw [← htime, List.mem_singleton.mp hit]
          exact h.sound.holds s record hload
  | moveNext hstep => exact h.moveNext hstep

omit [Platform] in
theorem visit_of_sweepTest {t : SharedHashTable setting} {th : TableThreads.Thread setting}
    (h : sweepTest t th = some test) :
    ∃ s, t.load s = some test.record ∧ ∀ hand, MayVisit hand s test.curEpochTime th.phase := by
  unfold sweepTest at h
  split at h
  · rename_i record sweep i p slots
    obtain ⟨found, hload, rfl⟩ := Option.map_eq_some_iff.mp h
    refine ⟨(i, p), hload, fun hand => ?_⟩
    cases sweep with
    | basedOnTime curEpochTime => exact ⟨rfl, rfl, List.mem_cons_self⟩
    | clock curEpochTime turns numBytesToFree => exact ⟨rfl, .inl ⟨rfl, List.mem_cons_self⟩⟩
  · cases h

theorem Timed.test {test : ExpiryTest} (h : Timed p) (hstep : Step p label p')
    (htest : label.test = some test) :
    createdAt setting test.record ≤ test.curEpochTime := by
  cases hstep with
  | tick time hle hlt => cases htest
  | getIterator => cases htest
  | thread hstep =>
    cases hstep with
    | @intro _ th _ _ th' before after hact =>
      have hmem : th ∈ before ++ th :: after := List.mem_append_right _ List.mem_cons_self
      have hpast := h.past th hmem
      cases hact with
      | base hact htimely =>
        obtain ⟨s, hload, hvisit⟩ := visit_of_sweepTest htest
        exact h.visits s _ _ hload (.inl ⟨_, hmem, .inl (hvisit _)⟩)
      | getExpired hexpired =>
        obtain rfl := Option.some.inj htest
        exact hpast.data _ _ rfl
      | getHits hfresh =>
        obtain rfl := Option.some.inj htest
        exact hpast.data _ _ rfl
      | _ => cases htest
  | moveNext hstep =>
    cases hstep with
    | @intro _ it _ _ it' before after hact =>
      have hmem : it ∈ before ++ it :: after := List.mem_append_right _ List.mem_cons_self
      cases hact with
      | move hmove =>
        have hmoved : it.Moved _ (it', _) := hmove ▸ (h.placed it hmem).moved options _
        obtain ⟨htime, s, hahead, hload⟩ := hmoved.test test htest
        rw [htime]
        exact h.visits s _ _ hload (.inr ⟨it, hmem, rfl, hahead⟩)

theorem timed_initial (setting : Setting) (options : Options) (allocator : Allocator)
    (numThreads : Nat) (hpos : 0 ≤ now) (hlt : now < 2 ^ 31) :
    Timed (initial setting options allocator numThreads now) where
  pos := hpos
  lt := hlt
  sound := Cache.sound_create _ _ allocator
  past th hth := by
    rw [List.eq_of_mem_replicate hth]
    exact ⟨trivial, fun _ _ hheld => by cases hheld⟩
  placed it hit := by cases hit
  exclusive := List.pairwise_replicate.mpr (.inr (.inl rfl))
  visits s record time hload hvisit := by
    have hnone := congrFun (SharedHashTable.load_create setting allocator) s
    cases hnone.symm.trans hload

end System

section Runs
variable [Platform] {table : Table (CacheConfig setting options)}
  {iterators : List (MovingIterator setting)}

theorem step_base {th th' : TableThreads.Thread setting}
    (hact : TableThreads.Act (CacheConfig setting options) [] table th label table' th')
    (htimely : Timely options now table.hashTable th.phase th'.phase) :
    Step ⟨now, table, [⟨th, .nothing⟩], iterators⟩
      (.thread label (sweepTest table.hashTable th))
      ⟨now, table', [⟨th', .nothing⟩], iterators⟩ :=
  .thread (.intro [] [] (.base hact htimely))

theorem run_create (iterators : List (MovingIterator setting))
    (htime : options.forceTimeBasedEviction = false)
    (hroom : TableThreads.numBytesToFree options
      (Cache.totalDataSize table.hashTable.perfData) record = 0)
    (hcreate : TableThreads.createRecordBuffer (CacheConfig setting options) table.hashTable record
      now = (hashTable, .ok recordToAdd)) :
    Run (Guarded PublishesAhead Step) ⟨now, table, [⟨⟨[], .idle⟩, .nothing⟩], iterators⟩
      [.thread (.call (.add record)) none, .thread .silent none, .thread .silent none,
        .thread .silent none,
        .thread (.calculate (Cache.totalDataSize table.hashTable.perfData)) none,
        .thread .silent none]
      ⟨now, table.setHashTable hashTable, [⟨⟨[], .adding recordToAdd⟩, .nothing⟩], iterators⟩ := by
  have hstart : TableThreads.startAdd (CacheConfig setting options) record =
      TableThreads.calculate record false := by
    simp only [TableThreads.startAdd, htime, Bool.false_eq_true, if_false]
  have hcall : TableThreads.Act (CacheConfig setting options) [] table ⟨[], .idle⟩
      (.call (.add record)) table ⟨[], TableThreads.calculate record false⟩ := by
    rw [← hstart]
    exact .callAdd record
  have hafter : TableThreads.afterCalculate (CacheConfig setting options) options record false
      (Cache.totalDataSize table.hashTable.perfData) now = .creating record := by
    simp only [TableThreads.afterCalculate, hroom, if_true]
  have hcalculate : TableThreads.Act (CacheConfig setting options) [] table
      ⟨[], .calculating record false [] (Cache.totalDataSize table.hashTable.perfData)⟩
      (.calculate (Cache.totalDataSize table.hashTable.perfData)) table
      ⟨[], .creating record⟩ := by
    rw [← hafter]
    exact .calculate rfl now
  have hsum : Cache.totalDataSize table.hashTable.perfData =
      0 + table.hashTable.perfData .totalKeySize + table.hashTable.perfData .totalValueSize +
        table.hashTable.perfData .totalIndexSize := by
    rw [Int.zero_add]
    rfl
  refine .cons ⟨trivial, step_base hcall trivial⟩ ?_
  refine .cons ⟨trivial, step_base (.readCounter [] _ .totalKeySize) trivial⟩ ?_
  refine .cons ⟨trivial, step_base (.readCounter [] _ .totalValueSize) trivial⟩ ?_
  refine .cons ⟨trivial, step_base (.readCounter [] _ .totalIndexSize) trivial⟩ ?_
  rw [← hsum]
  refine .cons ⟨trivial, step_base hcalculate trivial⟩ ?_
  refine .single ⟨trivial, step_base (.createRecordBuffer now hcreate) ?_⟩
  exact congrArg Prod.snd hcreate

theorem step_publish (now : Int) (table : Table (CacheConfig setting options))
    (iterators : List (MovingIterator setting))
    (ht : table.hashTable.Consistent setting.cacheRecordSerializer)
    (hb : setting.numBuckets ≠ 0) (recordToAdd : RecordBuffer) :
    ∃ s stat old hashTable th, ReadWrite.Published setting.cacheRecordSerializer table.hashTable
        recordToAdd s stat old hashTable ∧
      Step ⟨now, table, [⟨⟨[], .adding recordToAdd⟩, .nothing⟩], iterators⟩
        (.thread (.publish s recordToAdd old) none)
        ⟨now, table.setHashTable hashTable, [⟨th, .nothing⟩], iterators⟩ := by
  obtain ⟨i, hi, hinfo⟩ := SharedHashTable.getBucketInfo_ok hb
    (setting.cacheRecordSerializer.keyOf recordToAdd)
  obtain ⟨p, hslot, hp⟩ := ReadWrite.published ht hi
  have hlock : TableThreads.Unlocked ([] : List (TableThreads.Thread setting)) i :=
    fun _ hth => by cases hth
  exact ⟨(i, p), _, _, _, _, hp, step_base (.add hinfo hlock hslot rfl) trivial⟩

/-- The first slot of a table with one bucket. -/
def firstSlot : Setting.Slot {} := (⟨0, by decide⟩, ⟨0, 0⟩)

theorem run_moveNext {options : Options} {table : Table (CacheConfig {} options)} (now time : Int)
    (threads : List (Thread {})) (hload : table.hashTable.load firstSlot = some record) :
    ∃ it, Run (Guarded PublishesAhead Step)
      (⟨now, table, threads, [⟨.create time, .idle⟩]⟩ : System {} options)
      [.moveNext none, .moveNext none, .moveNext (some ⟨time, record⟩)]
      ⟨now, table, threads, [it]⟩ := by
  have hstep {it it' : MovingIterator {}} {test : Option ExpiryTest}
      (hmove : it.move options table.hashTable = (it', test)) :
      Guarded PublishesAhead Step (⟨now, table, threads, [it]⟩ : System {} options)
        (.moveNext test) ⟨now, table, threads, [it']⟩ :=
    ⟨trivial, .moveNext (.intro [] [] (.move hmove))⟩
  have hstart : MovingIterator.move options table.hashTable ⟨.create time, .idle⟩ =
      (⟨.create time, .looking⟩, none) := rfl
  have hbucket : MovingIterator.move options table.hashTable ⟨.create time, .looking⟩ =
      (⟨⟨⟨0, 0, some (firstSlot.1, 0), none⟩, time⟩, .looking⟩, none) := rfl
  obtain ⟨it, htest⟩ := MovingIterator.move_of_load options
    ⟨⟨0, 0, some (firstSlot.1, 0), none⟩, time⟩ rfl hload
  exact ⟨it, .cons (hstep hstart) (.cons (hstep hbucket) (.single (hstep htest)))⟩

theorem eq_firstSlot {t t' : SharedHashTable {}} (h : ReadWrite.Published rs t record s stat old t')
    (hnone : t.load = fun _ => none) : s = firstSlot := by
  obtain ⟨i, p⟩ := s
  have hfirst (q : SlotIndex) : ¬ q.Before p := by
    intro hq
    obtain ⟨r, hr⟩ := h.first (by rw [hnone]) q hq
    rw [hnone] at hr
    cases hr
  have hi : i = firstSlot.1 := Fin.ext (Nat.lt_one_iff.mp i.isLt)
  rcases SlotIndex.before_trichotomy p ⟨0, 0⟩ with hbefore | heq | hafter
  · rcases hbefore with hlt | ⟨-, hlt⟩
    · exact absurd hlt (Nat.not_lt_zero _)
    · exact absurd hlt (Nat.not_lt_zero _)
  · rw [hi, heq]
    rfl
  · exact absurd hafter (hfirst _)

theorem run_publish (options : Options) (now : Int) (iterators : List (MovingIterator {}))
    (record : Record)
    (htime : options.forceTimeBasedEviction = false) (hpos : 0 ≤ now) (hlt : now < 2 ^ 31)
    (hv : (Setting.cacheRecordSerializer {}).Validates record.key record.value)
    (hfits : record.value.size + 4 < 2 ^ 32)
    (hroom : TableThreads.numBytesToFree options
      (Cache.totalDataSize (SharedHashTable.create {} ⟨0, []⟩).perfData) record = 0) :
    ∃ labels table table' recordToAdd old th, createdAt {} recordToAdd = now ∧
      table'.hashTable.load firstSlot = some recordToAdd ∧
      Run (Guarded PublishesAhead Step)
        (⟨now, ⟨.create {} ⟨0, []⟩, 0⟩, [⟨⟨[], .idle⟩, .nothing⟩], iterators⟩ : System {} options)
        labels ⟨now, table, [⟨⟨[], .adding recordToAdd⟩, .nothing⟩], iterators⟩ ∧
      Step (⟨now, table, [⟨⟨[], .adding recordToAdd⟩, .nothing⟩], iterators⟩ : System {} options)
        (.thread (.publish firstSlot recordToAdd old) none)
        ⟨now, table', [⟨th, .nothing⟩], iterators⟩ := by
  obtain ⟨recordToAdd, allocator, hcached, hcreate⟩ :=
    Cache.WritableHashTable.createRecordBuffer_eq (SharedHashTable.create {} ⟨0, []⟩) now hv hfits
  have ht : ((SharedHashTable.create {} ⟨0, []⟩).setAllocator allocator).Consistent
      (Setting.cacheRecordSerializer {}) :=
    (SharedHashTable.consistent_create _ _).congr rfl rfl
  have hnone : ((SharedHashTable.create {} ⟨0, []⟩).setAllocator allocator).load = fun _ => none :=
    SharedHashTable.load_create _ _
  obtain ⟨s, stat, old, hashTable, th, hp, hstep⟩ := step_publish now
    (⟨(SharedHashTable.create {} ⟨0, []⟩).setAllocator allocator, 0⟩ :
      Table (CacheConfig {} options)) iterators ht (by decide) recordToAdd
  obtain rfl := eq_firstSlot hp hnone
  refine ⟨_, _, _, recordToAdd, old, th, ?_, ?_, run_create iterators htime hroom hcreate, hstep⟩
  · refine hcached.getEpochTime_eq.trans ?_
    omega
  · exact (congrFun hp.stored.load _).trans (Function.update_self ..)

end Runs

section Tests
variable [Platform]

/-- The state of a run, and the calls of `IsExpired` in it. -/
structure AskedPast (past : List (Label setting)) (p : System setting options) : Prop where
  timed : Timed p
  tests : ∀ label ∈ past, ∀ test, label.test = some test →
    createdAt setting test.record ≤ test.curEpochTime

theorem AskedPast.step {p p' : System setting options} (h : AskedPast past p)
    (hstep : Guarded PublishesAhead Step p label p') : AskedPast (past ++ [label]) p' := by
  refine ⟨h.timed.step hstep, fun label' hmem test htest => ?_⟩
  rcases List.mem_append.mp hmem with hmem | hmem
  · exact h.tests label' hmem test htest
  · rw [List.mem_singleton.mp hmem] at htest
    exact h.timed.test hstep.2 htest

/-- In every run of the threads and the iterators of a cache in which records are published ahead of
nobody who has an earlier time, `IsExpired` is never asked about a time before the creation of the
record. -/
theorem isExpired_asks_past (setting : Setting) (options : Options) (allocator : Allocator)
    (numThreads : Nat) (now : Int) (hpos : 0 ≤ now) (hlt : now < 2 ^ 31)
    (labels : List (Label setting)) (p : System setting options)
    (h : Run (Guarded PublishesAhead Step) (initial setting options allocator numThreads now) labels
      p) :
    ∀ label ∈ labels, ∀ test, label.test = some test →
      getEpochTime (metadataOf setting.cacheRecordSerializer test.record) ≤
        test.curEpochTime := by
  have hstart : AskedPast [] (initial setting options allocator numThreads now) :=
    ⟨timed_initial setting options allocator numThreads hpos hlt, fun label hmem => by cases hmem⟩
  exact (h.history (fun past p label p' hpast hstep => hpast.step hstep) hstart).tests

omit [Platform] in
/-- An iterator that is created after the `Add`. -/
theorem isExpired_asks_past_of_iterator :
    let _ : Platform := ⟨fun _ => (7, 0), 8, 64⟩
    let options : Options := ⟨1048576, 10, false⟩
    ∃ labels p test, Run (Guarded PublishesAhead Step) (initial {} options ⟨0, []⟩ 1 1) labels p ∧
      .moveNext (some test) ∈ labels ∧ test.curEpochTime = 1 ∧
      getEpochTime (metadataOf (Setting.cacheRecordSerializer {}) test.record) ≤
        test.curEpochTime := by
  intro platform options
  obtain ⟨labels, table, table', recordToAdd, old, th, -, hload, hadd, hpublish⟩ :=
    run_publish options 1 [] ⟨⟨[5], by decide⟩, ⟨[1], by decide⟩⟩ rfl
      (by decide) (by decide) (by decide) (by decide) (by decide +kernel)
  obtain ⟨it, hmove⟩ := run_moveNext 1 1 [⟨th, .nothing⟩] hload
  have hahead : PublishesAhead (⟨1, table, [⟨⟨[], .adding recordToAdd⟩, .nothing⟩], []⟩ :
      System {} options) (.thread (.publish firstSlot recordToAdd old) none) := by
    intro time hmay
    rcases hmay with ⟨th, hth, hvisit⟩ | ⟨it, hit, -⟩
    · obtain rfl := List.mem_singleton.mp hth
      rcases hvisit with hvisit | ⟨hheld, -⟩
      · exact hvisit.elim
      · cases hheld
    · cases hit
  have hiterator : Guarded PublishesAhead Step
      (⟨1, table', [⟨th, .nothing⟩], []⟩ : System {} options) .getIterator
      ⟨1, table', [⟨th, .nothing⟩], [⟨.create 1, .idle⟩]⟩ := ⟨trivial, .getIterator⟩
  have hrun := hadd.append (.cons ⟨hahead, hpublish⟩ (.cons hiterator hmove))
  refine ⟨_, _, ⟨1, recordToAdd⟩, hrun, by simp, rfl, ?_⟩
  exact isExpired_asks_past {} options ⟨0, []⟩ 1 1 (by decide) (by decide) _ _ hrun
    (.moveNext (some ⟨1, recordToAdd⟩)) (by simp) ⟨1, recordToAdd⟩ rfl

omit [Platform] in
/-- An iterator is created at time 0, a record is added at time 1, and `MoveNext` asks about the
record at time 0. -/
theorem isExpired_asks_future :
    let _ : Platform := ⟨fun _ => (7, 0), 8, 64⟩
    let options : Options := ⟨1048576, 10, false⟩
    ∃ labels p test, Run Step (initial {} options ⟨0, []⟩ 1 0 : System {} options) labels p ∧
      .moveNext (some test) ∈ labels ∧
      test.curEpochTime <
        getEpochTime (metadataOf (Setting.cacheRecordSerializer {}) test.record) := by
  intro platform options
  obtain ⟨labels, table, table', recordToAdd, old, th, hcreated, hload, hadd, hpublish⟩ :=
    run_publish options 1 [⟨.create 0, .idle⟩]
      ⟨⟨[5], by decide⟩, ⟨[1], by decide⟩⟩ rfl
      (by decide) (by decide) (by decide) (by decide) (by decide +kernel)
  obtain ⟨it, hmove⟩ := run_moveNext 1 0 [⟨th, .nothing⟩] hload
  have hafter := (hadd.mono fun _ _ _ h => h.2).append
    (.cons hpublish (hmove.mono fun _ _ _ h => h.2))
  refine ⟨_, _, ⟨0, recordToAdd⟩,
    .cons .getIterator (.cons (.tick 1 (by decide) (by decide)) hafter), by simp, ?_⟩
  change 0 < createdAt {} recordToAdd
  rw [hcreated]
  decide

end Tests

end L4.ClockedThreads
