import L4.CacheCalls

namespace L4.Cache
set_option autoImplicit true
open Metadata
variable {setting : Setting}

/-- The last value that has been added for each key and not been removed, with the time of its
`Add`. -/
abbrev Latest := Key → Option (Value × Int)

/-- What a call leaves as the last values. An `Add` that throws does not count. -/
def Call.latest (latest : Latest) : Call → Except Failure Response → Latest
  | .add key value times, .ok _ => Function.update latest key (some (value, times.create))
  | .remove key, _ => Function.update latest key none
  | _, _ => latest

/-- What a history leaves as the last values. -/
def latestOf (history : List (Call × Except Failure Response)) : Latest :=
  history.foldl (fun latest c => c.1.latest latest c.2) fun _ => none

theorem add_of_latest {c : Call} (h : c.latest latest response key = some (value, time)) :
    latest key = some (value, time) ∨ ∃ times, c = .add key value times ∧ times.create = time := by
  cases c with
  | add key' value' times =>
    cases response with
    | error e => exact .inl h
    | ok response =>
      simp only [Call.latest, Function.update_apply] at h
      split_ifs at h with hkey
      · obtain ⟨rfl, rfl⟩ := Prod.mk.inj (Option.some.inj h)
        exact .inr ⟨times, by rw [hkey], rfl⟩
      · exact .inl h
  | remove key' =>
    simp only [Call.latest, Function.update_apply] at h
    split_ifs at h
    exact .inl h
  | get key' curEpochTime => exact .inl h
  | getIterator curEpochTime => exact .inl h
  | moveNext iterator => exact .inl h

theorem exists_add_of_latest {history : List (Call × Except Failure Response)}
    (h : history.foldl (fun latest c => c.1.latest latest c.2) latest key = some (value, time)) :
    latest key = some (value, time) ∨
      ∃ times, .add key value times ∈ history.map Prod.fst ∧ times.create = time := by
  induction history generalizing latest with
  | nil => exact .inl h
  | cons c cs ih =>
    rcases ih h with hlatest | ⟨times, hmem, htime⟩
    · rcases add_of_latest hlatest with hlatest | ⟨times, hc, htime⟩
      · exact .inl hlatest
      · exact .inr ⟨times, hc ▸ List.mem_cons_self, htime⟩
    · exact .inr ⟨times, List.mem_cons_of_mem _ hmem, htime⟩

/-- A value of a key is its last one. -/
abbrev IsLatest (latest : Latest) (key : Key) (value : Value) (time : Int) : Prop :=
  latest key = some (value, time)

section Step
variable [Platform] {t t' : SharedHashTable setting} {latest : Latest} {options : Options}

/-- The table is consistent, and every stored record is the last one of its key. -/
abbrev Fresh (latest : Latest) (t : SharedHashTable setting) : Prop :=
  Sound setting.cacheRecordSerializer
    (CachedWith setting.cacheRecordSerializer (IsLatest latest)) t

omit [Platform] in
theorem cachedWith_update {record : RecordBuffer}
    (h : CachedWith setting.cacheRecordSerializer (IsLatest latest) record)
    (hkey : setting.cacheRecordSerializer.keyOf record ≠ key) (x : Option (Value × Int)) :
    CachedWith setting.cacheRecordSerializer (IsLatest (Function.update latest key x)) record := by
  obtain ⟨key', value, time, hcached, hlatest⟩ := h
  rw [(hcached.deserialize rfl).1] at hkey
  refine ⟨key', value, time, hcached, ?_⟩
  rw [IsLatest, Function.update_of_ne hkey]
  exact hlatest

theorem fresh_add (h : Fresh latest t)
    (he : WritableHashTable.AddEffect key value time t result t') :
    Fresh (if result.isOk then Function.update latest key (some (value, time)) else latest) t' := by
  cases he with
  | threw e allocator => exact h.congr rfl rfl
  | added record allocator s stat t' hcached hp =>
    have hconsistent := hp.consistent (h.consistent.congr rfl rfl)
    have hkey := (hcached.deserialize rfl).1
    refine ⟨hconsistent.congr rfl rfl, fun s' r hr => ?_⟩
    rw [SharedHashTable.load_updatePerfData, hp.stored.load, Function.update_apply] at hr
    split_ifs at hr with hs
    · obtain rfl := Option.some.inj hr
      exact ⟨key, value, time, hcached, Function.update_self _ _ _⟩
    · apply cachedWith_update (h.holds s' r hr)
      intro hsame
      exact hs (hp.admits.2 s' r hr (hsame.trans hkey.symm))

theorem fresh_remove (h : Fresh latest t)
    (he : WritableHashTable.RemoveEffect key t result t') :
    Fresh (Function.update latest key none) t' := by
  cases he with
  | threw e hb =>
    exact h.mono fun s record hload => absurd hb (Setting.numBuckets_ne_zero s.1)
  | missed hnone =>
    exact h.mono fun s record hload hholds => cachedWith_update hholds (hnone s record hload) none
  | removed record s t' hload hkey hu =>
    have ht' : Fresh latest t' := h.unlinked hu
    refine ⟨ht'.consistent.congr rfl rfl, fun s' r hr => ?_⟩
    rw [SharedHashTable.load_updatePerfData] at hr
    apply cachedWith_update (ht'.holds s' r hr)
    intro hsame
    rw [hu.stored.load, Function.update_apply] at hr
    split_ifs at hr with hs
    exact hs (h.consistent.unique s' s r record hr hload (hsame.trans hkey.symm))

theorem fresh_call (options : Options) {s : Session setting}
    (h : Fresh latest s.table.base.hashTable) (c : Call)
    (hsize : ∀ key value times, c = .add key value times → value.size + 4 < 2 ^ 32) :
    Fresh (c.latest latest (s.call options c).2) (s.call options c).1.table.base.hashTable := by
  cases c with
  | add key value times =>
    have hroom := WritableHashTable.sound_makeRoom options h key value times
    have he := (WritableHashTable.add_effect hroom fun _ => hsize key value times rfl).1
    have hadd := fresh_add hroom he
    simp only [Session.call]
    cases hresult : (s.table.add options key value times).2 with
    | error e =>
      rw [hresult] at hadd
      exact hadd
    | ok _ =>
      rw [hresult] at hadd
      exact hadd
  | remove key =>
    have he := (WritableHashTable.remove_effect h key).1
    exact fresh_remove h he
  | get key curEpochTime =>
    exact sound_get h (WritableHashTable.get_effect options h key curEpochTime).1
  | getIterator curEpochTime => exact h
  | moveNext iterator =>
    show Fresh latest (s.moveNext options iterator).1.table.base.hashTable
    rw [s.table_moveNext]
    exact h

theorem map_fst_run (s : Session setting) (calls : List Call) :
    (s.run options calls).2.map Prod.fst = calls := by
  induction calls generalizing s with
  | nil => rfl
  | cons c cs ih => exact congrArg (c :: ·) (ih _)

theorem fresh_run (options : Options) {s : Session setting}
    (h : Fresh latest s.table.base.hashTable) (calls : List Call)
    (hsizes : ∀ key value times, .add key value times ∈ calls → value.size + 4 < 2 ^ 32) :
    Fresh ((s.run options calls).2.foldl (fun latest c => c.1.latest latest c.2) latest)
      (s.run options calls).1.table.base.hashTable := by
  induction calls generalizing s latest with
  | nil => exact h
  | cons c cs ih =>
    have hc := fresh_call options h c fun key value times heq =>
      hsizes key value times (heq ▸ List.mem_cons_self)
    exact ih hc fun key value times hmem => hsizes key value times (List.mem_cons_of_mem _ hmem)

theorem fresh_of_get (h : Fresh latest t)
    (he : WritableHashTable.GetEffect options key now t (.ok (some value)) t') :
    ∃ time, latest key = some (value, time) ∧ now - time % 2 ^ 31 ≤ options.recordTimeToLive := by
  generalize hresult : Except.ok (some value) = result at he
  cases he with
  | threw e => cases hresult
  | missed => cases hresult
  | hit record s t' hload hkey hfresh htouch =>
    obtain ⟨key', value', time, hcached, hlatest⟩ := h.holds s record hload
    rw [(hcached.deserialize rfl).1] at hkey
    subst hkey
    have hvalue : withoutMetadata (setting.cacheRecordSerializer.valueOf record) = value' :=
      Blob.ext (hcached.drop_valueOf rfl)
    rw [hvalue] at hresult
    obtain rfl := Option.some.inj (Except.ok.inj hresult)
    rw [isExpired, hcached.getEpochTime_eq] at hfresh
    exact ⟨time, hlatest, Int.not_lt.mp (of_decide_eq_false hfresh)⟩

end Step

/-- Whatever calls have been made, `Get` returns the bytes of the last `Add` of its key that has not
thrown and that no `Remove` of the key has followed, and no more time than the time to live has
passed since. Losing the high bits of the time can only expire a record too early. -/
theorem get_fresh [Platform] (options : Options) (allocator : Allocator)
    (epochManager : EpochManager RecordBuffer) (calls : List Call)
    (hsizes : ∀ key value times, .add key value times ∈ calls → value.size + 4 < 2 ^ 32)
    (htimes : ∀ key value times, .add key value times ∈ calls → 0 ≤ times.create)
    (key : Key) (now : Int) (value : Value) :
    let ran := (Session.create setting allocator epochManager).run options calls
    (ran.1.table.get options key now).2 = .ok (some value) →
      ∃ time, latestOf ran.2 key = some (value, time) ∧
        now - time ≤ options.recordTimeToLive := by
  intro ran hget
  have hcreate : Fresh (fun _ => none) (SharedHashTable.create setting allocator) :=
    sound_create _ _ allocator
  have hfresh : Fresh (latestOf ran.2) ran.1.table.base.hashTable :=
    fresh_run options (s := .create setting allocator epochManager) hcreate calls hsizes
  have he := (WritableHashTable.get_effect options hfresh key now).1
  rw [hget] at he
  obtain ⟨time, hlatest, htime⟩ := fresh_of_get hfresh he
  have hpos : 0 ≤ time := by
    rcases exists_add_of_latest hlatest with hnone | ⟨times, hmem, rfl⟩
    · cases hnone
    · rw [map_fst_run] at hmem
      exact htimes key value times hmem
  have hmod : time % 2 ^ 31 ≤ time := by omega
  exact ⟨time, hlatest, by omega⟩

/-- A value that is overwritten at a time beyond the bits that are stored, and read. -/
theorem get_fresh_of_overwrite :
    let platform : Platform := ⟨fun _ => (7, 0), 8, 64⟩
    let options : Options := ⟨1000, 2 ^ 31 + 10, true⟩
    let key : Key := ⟨[1], by decide⟩
    let calls := [.add key ⟨[2], by decide⟩ ⟨5, 5, 5⟩, .get key 6,
      .add key ⟨[3], by decide⟩ ⟨2 ^ 31 + 7, 2 ^ 31 + 8, 2 ^ 31 + 9⟩]
    let ran := (Session.create {} ⟨0, []⟩ ⟨0, ⟨0, 0, [0], by decide⟩, ⟨[.empty], 0⟩⟩).run
      options calls
    ∃ time, latestOf ran.2 key = some (⟨[3], by decide⟩, time) ∧
      2 ^ 31 + 10 - time ≤ options.recordTimeToLive := by
  intro platform options key calls
  have hadds : ∀ key value times, .add key value times ∈ calls →
      value.size + 4 < 2 ^ 32 ∧ 0 ≤ times.create := by
    intro key value times hmem
    simp only [calls, List.mem_cons, Call.add.injEq, reduceCtorEq, List.not_mem_nil, or_false,
      false_or] at hmem
    rcases hmem with ⟨-, rfl, rfl⟩ | ⟨-, rfl, rfl⟩
    · exact ⟨by decide, by decide⟩
    · exact ⟨by decide, by decide⟩
  exact get_fresh options ⟨0, []⟩ _ calls
    (fun key value times hmem => (hadds key value times hmem).1)
    (fun key value times hmem => (hadds key value times hmem).2) key (2 ^ 31 + 10)
    ⟨[3], by decide⟩ (by decide +kernel)

end L4.Cache
