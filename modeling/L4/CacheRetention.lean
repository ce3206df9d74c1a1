import L4.CacheClock
import L4.CacheCapacity
import L4.CacheFreshness

namespace L4.Cache
set_option autoImplicit true
open WritableHashTable (evict makeRoom AddEffect RemoveEffect GetEffect)
open Metadata
variable {setting : Setting}

/-- The readings of the clock in a call. -/
def Call.times : Call → List Int
  | .add _ _ times => [times.evictBasedOnTime, times.evict, times.create]
  | .get _ curEpochTime => [curEpochTime]
  | .getIterator curEpochTime => [curEpochTime]
  | _ => []

section Retention
variable [Platform] {options : Options} {t t' : SharedHashTable setting} {latest : Latest}

omit [Platform] in
def HasKey (t : SharedHashTable setting) (key : Key) : Prop :=
  ∃ slot record, t.load slot = some record ∧ setting.cacheRecordSerializer.keyOf record = key

/-- `Evict` does not remove the record of a key in an `Add`. -/
def KeptByEvict (options : Options) (t : WritableHashTable setting) (key : Key) (added : Key)
    (value : Value) (times : AddTimes) : Prop :=
  let t₁ := timeBased options t added times.evictBasedOnTime
  ∀ slot record, t₁.base.hashTable.load slot = some record →
    setting.cacheRecordSerializer.keyOf record = key →
    (evict options t₁ (bytesNeeded added value) times.evict).base.hashTable.load slot ≠ none

/-- A call that neither adds nor removes a key, and in which `Evict` leaves its record. -/
def Session.Retains (options : Options) (key : Key) (s : Session setting) : Call → Prop
  | .add added value times =>
    (added = key → (s.table.add options added value times).2.isOk = false) ∧
      KeptByEvict options s.table key added value times
  | .remove removed => removed ≠ key
  | _ => True

theorem hasKey_add (h : HasKey t key) (he : AddEffect added value time t result t')
    (hadded : added = key → result.isOk = false) : HasKey t' key := by
  obtain ⟨slot, record, hload, hkey⟩ := h
  cases he with
  | threw e allocator => exact ⟨slot, record, hload, hkey⟩
  | added record' allocator s stat t' hcached hp =>
    refine ⟨slot, record, ?_, hkey⟩
    rw [SharedHashTable.load_updatePerfData, hp.stored.load, Function.update_of_ne]
    · exact hload
    · rintro rfl
      have hsame := hp.admits.1 record hload
      rw [(hcached.deserialize rfl).1, hkey] at hsame
      exact nomatch hadded hsame.symm

omit [Platform] in
theorem hasKey_remove (h : HasKey t key) (he : RemoveEffect removed t result t')
    (hne : removed ≠ key) : HasKey t' key := by
  obtain ⟨slot, record, hload, hkey⟩ := h
  cases he with
  | threw e hb => exact ⟨slot, record, hload, hkey⟩
  | missed hnone => exact ⟨slot, record, hload, hkey⟩
  | removed record' s t' hload' hkey' hu =>
    refine ⟨slot, record, ?_, hkey⟩
    rw [SharedHashTable.load_updatePerfData, hu.stored.load, Function.update_of_ne]
    · exact hload
    · rintro rfl
      obtain rfl := Option.some.inj (hload.symm.trans hload')
      exact hne (hkey'.symm.trans hkey)

theorem hasKey_get (h : HasKey t key) (hs : Fresh latest t)
    (he : GetEffect options key' curEpochTime t result t') : HasKey t' key := by
  obtain ⟨slot, record, hload, hkey⟩ := h
  cases he with
  | threw e => exact ⟨slot, record, hload, hkey⟩
  | missed => exact ⟨slot, record, hload, hkey⟩
  | hit record' s t' hload' hkey' hfresh htouch =>
    by_cases hslot : slot = s
    · subst hslot
      obtain rfl := Option.some.inj (hload.symm.trans hload')
      have hload₁ := congrFun htouch.stored.load slot
      rw [Function.update_self] at hload₁
      have hkeeps := keeps_updateAccessStatus setting _ record true (hs.holds slot record hload)
      exact ⟨slot, _, hload₁, hkeeps.2.1.trans hkey⟩
    · refine ⟨slot, record, ?_, hkey⟩
      rw [SharedHashTable.load_updatePerfData, htouch.stored.load, Function.update_of_ne hslot]
      exact hload

/-- The last record of a key is stored, or it has expired. -/
def Retained (options : Options) (key : Key) (time now : Int) (t : SharedHashTable setting) :
    Prop :=
  HasKey t key ∨ options.recordTimeToLive < now - time % 2 ^ 31

theorem cached_of_fresh (h : Fresh latest t) (hlatest : latest key = some (value, time))
    (hload : t.load slot = some record)
    (hkey : setting.cacheRecordSerializer.keyOf record = key) :
    Cached setting.cacheRecordSerializer record key value time := by
  obtain ⟨key', value', time', hcached, hsome⟩ := h.holds slot record hload
  rw [(hcached.deserialize rfl).1] at hkey
  subst hkey
  obtain ⟨rfl, rfl⟩ := Prod.mk.inj (Option.some.inj (hlatest.symm.trans hsome))
  exact hcached

theorem isExpired_iff_of_fresh (h : Fresh latest t) (hlatest : latest key = some (value, time))
    (hload : t.load slot = some record)
    (hkey : setting.cacheRecordSerializer.keyOf record = key) (now timeToLive : Int) :
    isExpired (metadataOf setting.cacheRecordSerializer record) now timeToLive = true ↔
      timeToLive < now - time % 2 ^ 31 := by
  rw [isExpired, (cached_of_fresh h hlatest hload hkey).getEpochTime_eq, decide_eq_true_eq]

theorem retained_makeRoom {t : WritableHashTable setting} (h : Accounted t.base.hashTable)
    (hs : Fresh latest t.base.hashTable) (hlatest : latest key = some (value, time))
    (hkept : KeptByEvict options t key added value' times)
    (hclock : times.evictBasedOnTime ≤ now)
    (hretained : Retained options key time now t.base.hashTable) :
    Retained options key time now
      (makeRoom options t added value' times).1.base.hashTable := by
  rcases hretained with ⟨slot, record, hload, hkey⟩ | hexpired
  · have hb := Setting.numBuckets_ne_zero slot.1
    obtain ⟨htime, -, hmake⟩ := makeRoom_eq options h hb added value' times
    by_cases hstays : Stays setting options added times.evictBasedOnTime record
    · have hload₁ := (htime.load slot record).mpr ⟨hload, hstays⟩
      have hne := hkept slot record hload₁ hkey
      obtain ⟨record', hload'⟩ := Option.ne_none_iff_exists'.mp hne
      left
      rw [hmake]
      refine ⟨slot, record', hload', ?_⟩
      rw [evict_eq_after] at hload'
      obtain ⟨record₁, hrecord₁, hsame⟩ := load_after_eq_some
        (s := evicting options (timeBased options t added times.evictBasedOnTime) _) hload'
      obtain rfl := Option.some.inj (hload₁.symm.trans hrecord₁)
      rcases hsame with rfl | rfl
      · exact hkey
      · exact (clearAccess_keeps _ record).1.trans hkey
    · right
      have hexpired := (not_not.mp hstays).2.2
      rw [isExpired_iff_of_fresh hs hlatest hload hkey] at hexpired
      omega
  · exact .inr hexpired

theorem retained_call {s : Session setting} (h : Accounted s.table.base.hashTable)
    (hs : Fresh latest s.table.base.hashTable) (hlatest : latest key = some (value, time))
    (c : Call) (hsize : ∀ key value times, c = .add key value times → value.size + 4 < 2 ^ 32)
    (hretains : s.Retains options key c) (hclock : ∀ u ∈ c.times, u ≤ now)
    (hretained : Retained options key time now s.table.base.hashTable) :
    Retained options key time now (s.call options c).1.table.base.hashTable := by
  cases c with
  | add added value' times =>
    obtain ⟨hadded, hkept⟩ := hretains
    have hroom := WritableHashTable.sound_makeRoom options hs added value' times
    have he := (WritableHashTable.add_effect hroom fun _ => hsize added value' times rfl).1
    rcases retained_makeRoom h hs hlatest hkept (hclock _ (by simp [Call.times])) hretained with
      hstored | hexpired
    · exact .inl (hasKey_add hstored he hadded)
    · exact .inr hexpired
  | remove removed =>
    rcases hretained with hstored | hexpired
    · exact .inl (hasKey_remove hstored (WritableHashTable.remove_effect hs removed).1 hretains)
    · exact .inr hexpired
  | get key' curEpochTime =>
    rcases hretained with hstored | hexpired
    · have heffect := WritableHashTable.get_effect options hs key' curEpochTime
      exact .inl (hasKey_get hstored hs heffect.1)
    · exact .inr hexpired
  | getIterator curEpochTime => exact hretained
  | moveNext iterator =>
    show Retained options key time now (s.moveNext options iterator).1.table.base.hashTable
    rw [s.table_moveNext]
    exact hretained

theorem latest_of_retains {s : Session setting} {c : Call} (h : s.Retains options key c) :
    c.latest latest (s.call options c).2 key = latest key := by
  cases c with
  | add added value times =>
    have hcall : (s.call options (.add added value times)).2 =
        (s.table.add options added value times).2.map fun _ => .added := rfl
    have hadded := h.1
    rw [hcall]
    cases hresult : (s.table.add options added value times).2 with
    | error e => rfl
    | ok result =>
      rw [hresult] at hadded
      exact Function.update_of_ne (fun heq => nomatch hadded heq.symm) _ _
  | remove removed => exact Function.update_of_ne (Ne.symm h) _ _
  | get key' curEpochTime => rfl
  | getIterator curEpochTime => rfl
  | moveNext iterator => rfl

/-- What holds of the last record of a key while it is neither replaced, removed nor evicted. -/
structure Retaining (options : Options) (key : Key) (value : Value) (time now : Int)
    (s : Session setting) : Prop where
  accounted : Accounted s.table.base.hashTable
  fresh : ∃ latest, Fresh latest s.table.base.hashTable ∧ latest key = some (value, time)
  retained : Retained options key time now s.table.base.hashTable

theorem Retaining.run {s s' : Session setting} (h : Retaining options key value time now s)
    (hrun : Transition.Run
      (Transition.Guarded (Session.Retains options key) (Session.Step options)) s calls s')
    (hsizes : ∀ key value times, .add key value times ∈ calls → value.size + 4 < 2 ^ 32)
    (hclock : ∀ c ∈ calls, ∀ u ∈ c.times, u ≤ now) :
    Retaining options key value time now s' := by
  induction hrun with
  | nil => exact h
  | @cons s c s₁ calls s' hstep hrest ih =>
    obtain ⟨hretains, rfl⟩ := hstep
    obtain ⟨haccounted, ⟨latest, hfresh, hlatest⟩, hretained⟩ := h
    have hsize : ∀ key value times, c = .add key value times → value.size + 4 < 2 ^ 32 :=
      fun key value times heq => hsizes key value times (heq ▸ List.mem_cons_self)
    refine ih ⟨accounted_call options haccounted c hsize,
      ⟨_, fresh_call options hfresh c hsize, (latest_of_retains hretains).trans hlatest⟩,
      retained_call haccounted hfresh hlatest c hsize hretains (hclock c List.mem_cons_self)
        hretained⟩ ?_ ?_
    · exact fun key value times hmem => hsizes key value times (List.mem_cons_of_mem _ hmem)
    · exact fun c hmem => hclock c (List.mem_cons_of_mem _ hmem)

theorem Retaining.get_iff {s : Session setting} (h : Retaining options key value time now s) :
    (s.table.get options key now).2 = .ok (some value) ↔
      now - time % 2 ^ 31 ≤ options.recordTimeToLive := by
  obtain ⟨haccounted, ⟨latest, hfresh, hlatest⟩, hretained⟩ := h
  have he := (WritableHashTable.get_effect options hfresh key now).1
  constructor
  · intro hget
    rw [hget] at he
    obtain ⟨time', hsome, hle⟩ := fresh_of_get hfresh he
    obtain ⟨-, rfl⟩ := Prod.mk.inj (Option.some.inj (hlatest.symm.trans hsome))
    exact hle
  · intro hle
    rcases hretained with ⟨slot, record, hload, hkey⟩ | hexpired
    · have hexpired : isExpired (metadataOf setting.cacheRecordSerializer record) now
          options.recordTimeToLive = false := by
        rw [← Bool.not_eq_true, isExpired_iff_of_fresh hfresh hlatest hload hkey]
        exact Int.not_lt.mpr hle
      rw [WritableHashTable.get_of_load haccounted.sound.consistent hload hkey hexpired]
      have hcached := cached_of_fresh hfresh hlatest hload hkey
      exact congrArg (Except.ok ∘ some) (Blob.ext (hcached.drop_valueOf rfl))
    · exact absurd hle (Int.not_le.mpr hexpired)

theorem retaining_add {s : Session setting} (h : Accounted s.table.base.hashTable)
    (hs : Fresh latest s.table.base.hashTable) (hsize : value.size + 4 < 2 ^ 32)
    (hadded : (s.call options (.add key value times)).2 = .ok .added) (now : Int) :
    Retaining options key value times.create now
      (s.call options (.add key value times)).1 := by
  have hsizes : ∀ key' value' times', Call.add key value times = .add key' value' times' →
      value'.size + 4 < 2 ^ 32 := by
    intro key' value' times' heq
    cases heq
    exact hsize
  have hfresh := fresh_call options hs (.add key value times) hsizes
  rw [hadded] at hfresh
  refine ⟨accounted_call options h _ hsizes, ⟨_, hfresh, Function.update_self _ _ _⟩, .inl ?_⟩
  have hroom := WritableHashTable.sound_makeRoom options hs key value times
  have he := (WritableHashTable.add_effect hroom fun _ => hsize).1
  have hcall : (s.call options (.add key value times)).2 =
      (s.table.add options key value times).2.map fun _ => .added := rfl
  show HasKey (s.table.add options key value times).1.base.hashTable key
  generalize (s.table.add options key value times).1.base.hashTable = t' at he ⊢
  generalize (s.table.add options key value times).2 = result at he hcall
  cases he with
  | threw e allocator => exact nomatch hcall.symm.trans hadded
  | added record allocator slot stat t' hcached hp =>
    have hload := congrFun hp.stored.load slot
    rw [Function.update_self] at hload
    exact ⟨slot, record, hload, (hcached.deserialize rfl).1⟩

/-- While a key is neither added again nor removed, and `Evict` leaves its record, `Get` returns the
last value of the key if and only if no more time than the time to live has passed since what 31
bits keep of the time of its `Add`. -/
theorem get_iff_not_expired (options : Options) (allocator : Allocator)
    (epochManager : EpochManager RecordBuffer) (calls later : List Call) (key : Key)
    (value : Value) (times : AddTimes) (now : Int) (s' : Session setting)
    (hsizes : ∀ key' value' times',
      .add key' value' times' ∈ calls ++ .add key value times :: later →
      value'.size + 4 < 2 ^ 32) :
    let s := ((Session.create setting allocator epochManager).run options calls).1
    (s.call options (.add key value times)).2 = .ok .added →
    Transition.Run (Transition.Guarded (Session.Retains options key) (Session.Step options))
      (s.call options (.add key value times)).1 later s' →
    (∀ c ∈ later, ∀ u ∈ c.times, u ≤ now) →
    ((s'.table.get options key now).2 = .ok (some value) ↔
      now - times.create % 2 ^ 31 ≤ options.recordTimeToLive) := by
  intro s hadded hrun hclock
  have hbefore : ∀ key value times, .add key value times ∈ calls → value.size + 4 < 2 ^ 32 :=
    fun key' value' times' hmem => hsizes key' value' times' (List.mem_append_left _ hmem)
  have hlater : ∀ key value times, .add key value times ∈ later → value.size + 4 < 2 ^ 32 :=
    fun key' value' times' hmem => hsizes key' value' times'
      (List.mem_append_right _ (List.mem_cons_of_mem _ hmem))
  have haccounted : Accounted s.table.base.hashTable :=
    accounted_run (s := .create setting allocator epochManager) (accounted_create setting allocator)
      calls hbefore
  have hcreate : Fresh (fun _ => none)
      (Session.create setting allocator epochManager).table.base.hashTable :=
    sound_create _ _ allocator
  have hfresh := fresh_run options (s := .create setting allocator epochManager) hcreate calls
    hbefore
  have hadd := retaining_add haccounted hfresh (hsizes key value times (by simp)) hadded now
  exact (hadd.run hrun hlater hclock).get_iff

omit [Platform] in
/-- At `2 ^ 31` seconds nothing is left of the time, and the record has expired at once. -/
theorem expired_at_once :
    let platform : Platform := ⟨fun _ => (7, 0), 8, 64⟩
    let options : Options := ⟨1000, 10, false⟩
    let key : Key := ⟨[1], by decide⟩
    let s := (Session.create {} ⟨0, []⟩ ⟨0, ⟨0, 0, [0], by decide⟩, ⟨[.empty], 0⟩⟩).call options
      (.add key ⟨[2], by decide⟩ ⟨2 ^ 31, 2 ^ 31, 2 ^ 31⟩)
    s.2 = .ok .added ∧
      (s.1.table.get options key (2 ^ 31)).2 ≠ .ok (some ⟨[2], by decide⟩) := by
  intro platform options key s
  exact ⟨by decide +kernel, by decide +kernel⟩

omit [Platform] in
/-- The last second before `2 ^ 31`, with another call in between. -/
theorem get_iff_not_expired_of_last_second :
    let platform : Platform := ⟨fun _ => (7, 0), 8, 64⟩
    let options : Options := ⟨1000, 10, false⟩
    let key : Key := ⟨[1], by decide⟩
    let s := ((Session.create {} ⟨0, []⟩ ⟨0, ⟨0, 0, [0], by decide⟩, ⟨[.empty], 0⟩⟩).run options
      []).1
    let s' := ((s.call options
      (.add key ⟨[2], by decide⟩ ⟨2 ^ 31 - 1, 2 ^ 31 - 1, 2 ^ 31 - 1⟩)).1.call options
        (.get key (2 ^ 31))).1
    (s'.table.get options key (2 ^ 31 + 9)).2 = .ok (some ⟨[2], by decide⟩) ↔
      (2 ^ 31 + 9 : Int) - (2 ^ 31 - 1) % 2 ^ 31 ≤ options.recordTimeToLive := by
  intro platform options key s s'
  refine get_iff_not_expired options ⟨0, []⟩ ⟨0, ⟨0, 0, [0], by decide⟩, ⟨[.empty], 0⟩⟩ []
    [.get key (2 ^ 31)] key ⟨[2], by decide⟩ ⟨2 ^ 31 - 1, 2 ^ 31 - 1, 2 ^ 31 - 1⟩ (2 ^ 31 + 9) s'
    ?_ (by decide +kernel) (.single ⟨trivial, rfl⟩) ?_
  · intro key' value' times' hmem
    simp only [List.nil_append, List.mem_cons, Call.add.injEq, reduceCtorEq, List.not_mem_nil,
      or_false] at hmem
    obtain ⟨-, rfl, -⟩ := hmem
    decide
  · simp [Call.times]

end Retention

end L4.Cache
