import Mathlib.Data.Prod.Lex
import L4.Library.ThreadRank
import L4.TableLinearizability

namespace L4.TableThreads
set_option autoImplicit true
open SharedHashTable (getBucketInfo getBucketInfo_ok)
open Transition (Run)

/-! No thread waits forever for the locks of a table. -/

section Rank
variable {setting : Setting}

/-- The stage of a pass over a bucket, and the buckets that are still to visit. -/
def Sweep.rank : Sweep → Nat × Nat
  | .basedOnTime _ => (10, 0)
  | .clock _ n _ => (6, 2 * n + 1)

/-- What a thread has still to do before it returns: the stage of its operation, the buckets that
are still to visit and what it has still to read there. -/
def Phase.rank : Phase setting → Nat × Nat × Nat
  | .idle => (0, 0, 0)
  | .evictingBasedOnTime _ => (11, 0, 0)
  | .calculating _ locked unread _ => (if locked then 7 else 9, 0, unread.length)
  | .waiting _ => (8, 0, 0)
  | .evicting _ _ n _ => (6, 2 * n, 0)
  | .sweeping _ sweep _ slots => (sweep.rank.1, sweep.rank.2, slots.length)
  | .creating _ => (5, 0, 0)
  | .adding _ | .removing _ | .getting _ => (4, 0, 0)
  | .counting .. | .removed _ | .found .. => (3, 0, 0)
  | .got _ => (2, 0, 0)

def Thread.rank (th : Thread setting) : Nat ×ₗ Nat ×ₗ Nat ×ₗ Nat :=
  toLex (th.phase.rank.1, toLex (th.phase.rank.2.1, toLex (th.phase.rank.2.2, th.tasks.length)))

def Label.isCall : Label setting → Bool
  | .call _ => true
  | _ => false

end Rank

section Acts
variable [Platform] {config : HashTableConfig} {others : List (Thread config.setting)}
  {t t' : Table config} {th th' : Thread config.setting} {label : Label config.setting}

omit [Platform] in
theorem Sweep.rank_removed (rs : RecordSerializer) (record : RecordBuffer) (sweep : Sweep) :
    (sweep.removed rs record).rank = sweep.rank := by
  cases sweep <;> rfl

theorem Act.rank_lt (h : Act config others t th label t' th') (hcall : label.isCall = false) :
    th'.rank < th.rank := by
  simp only [Thread.rank, Prod.Lex.toLex_lt_toLex]
  cases h with
  | callAdd record => cases hcall
  | callRemove key => cases hcall
  | callGet key => cases hcall
  | endSweep record sweep =>
    cases sweep <;> simp [Sweep.next, TableThreads.calculate, Phase.rank, Sweep.rank]
  | visitRemoves hcache hload hvisit =>
    simp [Phase.rank, Sweep.rank_removed]
  | @calculate options record locked =>
    rw [afterCalculate]
    split_ifs with hzero hlocked
    · rw [Phase.rank, Phase.rank]
      split_ifs <;> simp
    · simp [Phase.rank, hlocked]
    · simp [Phase.rank, hlocked]
  | evictBucket =>
    simp [Phase.rank, Sweep.rank, Nat.mul_add]
  | _ => simp [Phase.rank, Sweep.rank, TableThreads.calculate]

theorem wellFounded_step (config : HashTableConfig) : WellFounded fun p' p : System config =>
    ∃ label, label.isCall = false ∧ Step config p label p' := by
  have hlt : WellFounded fun r r' : Nat ×ₗ Nat ×ₗ Nat ×ₗ Nat => r < r' := wellFounded_lt
  refine Subrelation.wf ?_ (ThreadPool.wellFounded_step Thread.rank hlt
    fun others t th label t' th'
      (h : label.isCall = false ∧ Act config others t th label t' th') => h.2.rank_lt h.1)
  rintro p' p ⟨label, hcall, hstep⟩
  cases hstep with
  | intro before after h => exact ⟨label, .intro before after ⟨hcall, h⟩⟩

/-- What a thread of a table without a cache never does, and that there are buckets to visit. -/
def Phase.Fitting : Phase config.setting → Prop
  | .evictingBasedOnTime _ | .calculating .. | .waiting _ | .sweeping .. | .found .. =>
    config.cache.isSome
  | .evicting _ _ n _ => config.cache.isSome ∧ (n ≠ 0 → config.setting.numBuckets.toNat ≠ 0)
  | _ => True

theorem Act.fitting (h : Act config others t th label t' th') (hth : th.phase.Fitting) :
    th'.phase.Fitting := by
  cases h with
  | callAdd record =>
    rw [startAdd]
    split
    · trivial
    · rename_i hcache
      split_ifs <;> exact (congrArg Option.isSome hcache).trans rfl
  | @endSweep _ i record sweep =>
    cases sweep with
    | basedOnTime => exact hth
    | clock => exact ⟨hth, fun _ => Nat.ne_of_gt (Nat.lt_of_le_of_lt (Nat.zero_le _) i.isLt)⟩
  | calculate hcache curEpochTime =>
    rw [afterCalculate]
    split_ifs
    · trivial
    · exact ⟨hth, fun h => by omega⟩
    · exact hth
  | evictBucket => exact hth.1
  | getFinds hcache => exact (congrArg Option.isSome hcache).trans rfl
  | update => exact hth
  | release => exact hth
  | evictBasedOnTime => exact hth
  | visitEmpty => exact hth
  | visitStays => exact hth
  | visitRemoves => exact hth
  | readCounter => exact hth
  | lockEvictMutex => exact hth
  | _ => trivial

omit [Platform] in
/-- The phases before the lock of a bucket. -/
def Phase.takesLock : Phase config.setting → Bool
  | .evictingBasedOnTime _ | .evicting .. | .adding _ | .removing _ => true
  | _ => false

/-- A thread goes on as soon as it does not have to wait for a lock. -/
theorem Act.exists_step {m : ReadWrite.Mapping} (hstores : Stores config t.hashTable m)
    (hfitting : th.phase.Fitting)
    (hlocks : th.phase.takesLock → ∀ x ∈ others, x.phase.lock = none)
    (hmutex : ∀ record, th.phase = .waiting record → ∀ x ∈ others, x.phase.holdsEvictMutex = false)
    (hidle : th ≠ ⟨[], .idle⟩) :
    ∃ label t' th', label.isCall = false ∧ Act config others t th label t' th' := by
  have hunlocked (htakes : th.phase.takesLock) (i : config.setting.BucketIndex) :
      Unlocked others i := fun x hx => by
    rw [hlocks htakes x hx]
    exact Option.some_ne_none i ∘ Eq.symm
  obtain ⟨_ | ⟨task, tasks⟩, phase⟩ := th
  · cases phase with
    | idle => exact absurd rfl hidle
    | evictingBasedOnTime record =>
      cases hinfo : getBucketInfo config.setting record.key with
      | error e => exact ⟨_, _, _, rfl, .evictBasedOnTimeThrows hinfo⟩
      | ok info => exact ⟨_, _, _, rfl, .evictBasedOnTime 0 hinfo (hunlocked rfl _)⟩
    | calculating record locked unread totalDataSize =>
      obtain ⟨options, hcache⟩ := Option.isSome_iff_exists.mp hfitting
      cases unread with
      | nil => exact ⟨_, _, _, rfl, .calculate hcache 0⟩
      | cons counter unread => exact ⟨_, _, _, rfl, .readCounter [] unread counter⟩
    | waiting record => exact ⟨_, _, _, rfl, .lockEvictMutex (hmutex record rfl)⟩
    | evicting record curEpochTime n bytes =>
      by_cases hend : bytes = 0 ∨ n = 0
      · exact ⟨_, _, _, rfl, .endEvict hend⟩
      · obtain ⟨hbytes, hn⟩ := not_or.mp hend
        obtain ⟨n, rfl⟩ := Nat.exists_eq_succ_of_ne_zero hn
        have hi := Nat.mod_lt t.currentEvictBucketIndex.toNat (Nat.pos_of_ne_zero (hfitting.2 hn))
        exact ⟨_, _, _, rfl, .evictBucket (i := ⟨_, hi⟩) hbytes rfl (hunlocked rfl _)⟩
    | sweeping record sweep i slots =>
      obtain ⟨options, hcache⟩ := Option.isSome_iff_exists.mp hfitting
      cases slots with
      | nil => exact ⟨_, _, _, rfl, .endSweep record sweep⟩
      | cons p slots =>
        cases hload : t.hashTable.load (i, p) with
        | none => exact ⟨_, _, _, rfl, .visitEmpty hload⟩
        | some r =>
          cases hvisit : sweep.visit config.recordSerializer options r with
          | none => exact ⟨_, _, _, rfl, .visitRemoves hcache hload hvisit⟩
          | some r' => exact ⟨_, _, _, rfl, .visitStays hcache hload hvisit⟩
    | creating record =>
      cases hcreate : TableThreads.createRecordBuffer config t.hashTable record 0 with
      | mk hashTable result =>
        cases result with
        | error e => exact ⟨_, _, _, rfl, .createRecordBufferThrows 0 hcreate⟩
        | ok recordToAdd => exact ⟨_, _, _, rfl, .createRecordBuffer 0 hcreate⟩
    | adding recordToAdd =>
      cases hinfo : getBucketInfo config.setting (config.recordSerializer.keyOf recordToAdd) with
      | error e => exact ⟨_, _, _, rfl, .addThrows hinfo⟩
      | ok info =>
        obtain ⟨hi, htag⟩ := getBucketInfo_eq_ok hinfo
        obtain ⟨p, hslot, -⟩ := ReadWrite.published hstores.sound.consistent hi
        exact ⟨_, _, _, rfl, .add hinfo (hunlocked rfl _) (htag ▸ hslot) rfl⟩
    | counting s isNewEntryAdded => exact ⟨_, _, _, rfl, .returnAdd⟩
    | removing key =>
      cases hinfo : getBucketInfo config.setting key with
      | error e => exact ⟨_, _, _, rfl, .removeThrows hinfo⟩
      | ok info =>
        cases hfind : t.hashTable.buckets[info.1].find? config.recordSerializer key info.2 with
        | none => exact ⟨_, _, _, rfl, .removeMisses hinfo (hunlocked rfl _) hfind⟩
        | some found => exact ⟨_, _, _, rfl, .remove hinfo (hunlocked rfl _) hfind⟩
    | removed i => exact ⟨_, _, _, rfl, .returnRemove⟩
    | getting key => exact ⟨_, _, _, rfl, .getMisses⟩
    | found s record => exact ⟨_, _, _, rfl, .touch s record⟩
    | got value => exact ⟨_, _, _, rfl, .returnGet⟩
  · cases task with
    | update u => exact ⟨_, _, _, rfl, .update u tasks⟩
    | release record => exact ⟨_, _, _, rfl, .release record tasks⟩

/-- The steps where the lock of one bucket keeps the threads from all of them. Buckets may share a
mutex. -/
abbrev CoarseStep (config : HashTableConfig) :
    System config → Label config.setting → System config → Prop :=
  ThreadPool.Step fun others t th label t' th' => Act config others t th label t' th' ∧
    (th.phase.takesLock → ∀ x ∈ others, x.phase.lock = none)

theorem exists_coarseStep {m : ReadWrite.Mapping} {p : System config}
    (hstores : Stores config p.shared.hashTable m) (hfitting : ∀ th ∈ p.threads, th.phase.Fitting)
    (hquiescent : ¬ Quiescent p) :
    ∃ label p', label.isCall = false ∧ CoarseStep config p label p' := by
  obtain ⟨t, threads⟩ := p
  have hstep {th : Thread config.setting} (hth : th ∈ threads)
      (hlocks : th.phase.takesLock → ∀ x ∈ threads, x.phase.lock = none)
      (hmutex : ∀ record, th.phase = .waiting record →
        ∀ x ∈ threads, x.phase.holdsEvictMutex = false)
      (hidle : th ≠ ⟨[], .idle⟩) :
      ∃ label p', label.isCall = false ∧ CoarseStep config ⟨t, threads⟩ label p' := by
    obtain ⟨before, after, rfl⟩ := List.append_of_mem hth
    have hothers (x : Thread config.setting) (hx : x ∈ before ++ after) :
        x ∈ before ++ th :: after := ThreadPool.mem_of_others hx th
    obtain ⟨label, t', th', hcall, hact⟩ := Act.exists_step hstores (hfitting th hth)
      (fun htakes x hx => hlocks htakes x (hothers x hx))
      (fun record hphase x hx => hmutex record hphase x (hothers x hx)) hidle
    exact ⟨label, _, hcall, .intro before after
      ⟨hact, fun htakes x hx => hlocks htakes x (hothers x hx)⟩⟩
  by_cases hlock : ∃ th ∈ threads, th.phase.lock ≠ none
  · -- who holds the lock of a bucket waits for nobody
    obtain ⟨⟨tasks, phase⟩, hth, hlock⟩ := hlock
    cases phase with
    | sweeping =>
      exact hstep hth (fun htakes => absurd htakes Bool.false_ne_true)
        (fun _ hphase => by cases hphase) (fun hidle => by cases hidle)
    | removed =>
      exact hstep hth (fun htakes => absurd htakes Bool.false_ne_true)
        (fun _ hphase => by cases hphase) (fun hidle => by cases hidle)
    | _ => exact absurd rfl hlock
  · have hnone (x : Thread config.setting) (hx : x ∈ threads) : x.phase.lock = none := by
      by_contra hne
      exact hlock ⟨x, hx, hne⟩
    by_cases hready : ∃ th ∈ threads, th ≠ ⟨[], .idle⟩ ∧ ∀ record, th.phase ≠ .waiting record
    · obtain ⟨th, hth, hidle, hwaiting⟩ := hready
      exact hstep hth (fun _ => hnone) (fun record hphase => absurd hphase (hwaiting record)) hidle
    · -- the threads that are left wait for a mutex that nobody holds
      have hwaits (x : Thread config.setting) (hx : x ∈ threads) (hidle : x ≠ ⟨[], .idle⟩) :
          ∃ record, x.phase = .waiting record := by
        by_contra hne
        exact hready ⟨x, hx, hidle, fun record hphase => hne ⟨record, hphase⟩⟩
      have hmutex (x : Thread config.setting) (hx : x ∈ threads) :
          x.phase.holdsEvictMutex = false := by
        by_cases hidle : x = ⟨[], .idle⟩
        · rw [hidle]
          rfl
        · obtain ⟨record, hphase⟩ := hwaits x hx hidle
          rw [hphase]
          rfl
      obtain ⟨th, hth, hidle⟩ : ∃ th ∈ threads, th ≠ ⟨[], .idle⟩ := by
        by_contra hne
        exact hquiescent fun th hth => by_contra fun hidle => hne ⟨th, hth, hidle⟩
      exact hstep hth (fun _ => hnone) (fun _ _ => hmutex) hidle

/-- Every operation returns: as long as one is in flight some thread can go on, and without new
calls the threads come to an end. -/
theorem operations_return (config : HashTableConfig) (allocator : Allocator) (numThreads : Nat)
    (labels : List (Label config.setting)) (p : System config)
    (hrun : Run (Step config) (initial config allocator numThreads) labels p)
    (hfits : config.cache.isSome → ∀ label ∈ labels, label.Fits) :
    (¬ Quiescent p → ∃ label p', label.isCall = false ∧ CoarseStep config p label p') ∧
      ∀ f : Nat → System config,
        ∃ n, ∀ label, Step config (f n) label (f (n + 1)) → label.isCall := by
  constructor
  · obtain ⟨numbered, hnumbered, rfl⟩ := ThreadPool.exists_numbered hrun
    obtain ⟨m, -, hstores⟩ := exists_linearizable hnumbered
      fun hcache x hx => hfits hcache x.2 (List.mem_map_of_mem hx)
    have hfitting : ∀ th ∈ p.threads, th.phase.Fitting :=
      hrun.invariant (I := fun p => ∀ th ∈ p.threads, th.phase.Fitting)
        (fun _ _ _ hp hstep => hstep.forall (I := fun _ th => th.phase.Fitting)
          (fun _ _ _ _ hact hth => hact.fitting hth) (fun _ _ _ _ _ _ _ _ hx => hx) hp)
        fun th hth => by
          rw [List.eq_of_mem_replicate hth]
          trivial
    exact exists_coarseStep hstores hfitting
  · intro f
    have : IsWellFounded (System config) _ := ⟨wellFounded_step config⟩
    obtain ⟨n, hn⟩ := WellFounded.not_rel_apply_succ
      (r := fun p' p => ∃ label, label.isCall = false ∧ Step config p label p') f
    refine ⟨n, fun label hstep => ?_⟩
    by_contra hcall
    exact hn ⟨label, Bool.eq_false_iff.mpr hcall, hstep⟩

omit [Platform] in
/-- Two threads have called `Remove`. -/
theorem operations_return_of_remove :
    let _ : Platform := ⟨fun _ => (7, 0), 8, 64⟩
    let config : HashTableConfig := ⟨{}, none⟩
    let key : Key := ⟨[1], by decide⟩
    ∃ label p', label.isCall = false ∧ CoarseStep config
      ⟨⟨.create config.setting ⟨0, []⟩, 0⟩, [⟨[], .removing key⟩, ⟨[], .removing key⟩]⟩
      label p' := by
  intro _ config key
  let idle : Thread config.setting := ⟨[], .idle⟩
  let called : Thread config.setting := ⟨[], .removing key⟩
  let t : Table config := ⟨.create config.setting ⟨0, []⟩, 0⟩
  have hfirst : Step config ⟨t, [idle, idle]⟩ (.call (.remove key)) ⟨t, [called, idle]⟩ :=
    .intro [] [idle] (.callRemove key)
  have hsecond : Step config ⟨t, [called, idle]⟩ (.call (.remove key)) ⟨t, [called, called]⟩ :=
    .intro [called] [] (.callRemove key)
  refine (operations_return config ⟨0, []⟩ 2 _ _ (.cons hfirst (.single hsecond))
    fun hcache => by cases hcache).1 fun hquiescent => ?_
  have hcalled : called = idle := hquiescent called List.mem_cons_self
  cases congrArg Thread.phase hcalled

end Acts

end L4.TableThreads
