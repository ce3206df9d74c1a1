import Mathlib.Algebra.Order.BigOperators.Group.Finset
import Mathlib.Algebra.Order.BigOperators.Group.List
import L4.CacheCapacity
import L4.TableThreadCounters

namespace L4.TableThreads
set_option autoImplicit true
open SharedHashTable (contents recordWeight entryWeight emptyContents)
open ReadWrite (Counted Published updatePerfDataForAdd perfUpdatesForRemoved)
open Cache (Sound Options)
variable {setting : Setting} {options : Options}

/-- The updates that a thread has still to make. -/
def Thread.updates (th : Thread setting) : List PerfUpdate :=
  th.tasks.filterMap fun
    | .update u => some u
    | .release _ => none

/-- The slot to which an `Add` has published a record that it has not counted. -/
def Thread.slots (th : Thread setting) : List setting.Slot :=
  match th.phase with
  | .counting s _ => if th.updates = [] then [] else [s]
  | _ => []

/-- The entry that an `Add` has chained and that it has not counted. -/
def Thread.entries (th : Thread setting) : List (setting.BucketIndex × Nat) :=
  match th.phase with
  | .counting s true => if th.updates = [] then [] else [(s.1, s.2.entry)]
  | _ => []

/-- The slot whose record a step takes away. -/
def Label.takes : Label setting → Option setting.Slot
  | .unlink s _ | .publish s _ (some _) => some s
  | _ => none

/-- No record is removed or replaced before the `Add` that has published it has counted it. -/
def CountedFirst (p : System config) (label : Label config.setting) : Prop :=
  ∀ s, label.takes = some s → ∀ th ∈ p.threads, s ∉ th.slots

/-- What a thread has at most still to add to a counter. -/
def Thread.gains (counter : HashTablePerfCounter) (th : Thread setting) : Int :=
  (th.updates.map fun u => max 0 (u.delta counter)).sum

theorem Thread.owed_eq (th : Thread setting) (counter : HashTablePerfCounter) :
    th.owed counter = (th.updates.map (PerfUpdate.delta counter)).sum := by
  obtain ⟨tasks, phase⟩ := th
  induction tasks with
  | nil => rfl
  | cons task tasks ih =>
    cases task with
    | update u => exact congrArg (u.delta counter + ·) ih
    | release record => exact (Int.zero_add _).trans ih

theorem Thread.owed_le_gains (th : Thread setting) (counter : HashTablePerfCounter) :
    th.owed counter ≤ th.gains counter := by
  rw [th.owed_eq]
  exact List.sum_le_sum fun u _ => le_max_right _ _

section Weights
variable (rs : RecordSerializer)

/-- What the record in a slot counts for. -/
def weightAt (t : SharedHashTable setting) (counter : HashTablePerfCounter) (s : setting.Slot) :
    Int :=
  (t.load s).elim 0 (recordWeight rs · counter)

theorem recordWeight_nonneg (record : RecordBuffer) (counter : HashTablePerfCounter) :
    0 ≤ recordWeight rs record counter := by
  cases counter <;> simp [recordWeight]

theorem entryWeight_nonneg (counter : HashTablePerfCounter) : 0 ≤ entryWeight counter := by
  cases counter <;> simp [entryWeight]

theorem sum_weightAt_le (counter : HashTablePerfCounter) {slots : List setting.Slot}
    (hslots : slots.Nodup) (t : SharedHashTable setting) :
    (slots.map (weightAt rs t counter)).sum ≤ t.total (recordWeight rs · counter) := by
  induction slots generalizing t with
  | nil =>
    refine List.sum_nonneg fun x hx => ?_
    obtain ⟨record, -, rfl⟩ := List.mem_map.mp hx
    exact recordWeight_nonneg rs record counter
  | cons s slots ih =>
    obtain ⟨hs, hslots⟩ := List.nodup_cons.mp hslots
    rw [List.map_cons, List.sum_cons]
    cases hload : t.load s with
    | none =>
      have hweight : weightAt rs t counter s = 0 := by rw [weightAt, hload]; rfl
      rw [hweight, Int.zero_add]
      exact ih hslots t
    | some record =>
      -- Without this record, the table counts for that much less.
      have hu := ReadWrite.unlinked_of_load hload
      have hrest : slots.map (weightAt rs t counter) =
          slots.map (weightAt rs (ReadWrite.unlink t s).2 counter) := by
        refine List.map_congr_left fun s' hs' => ?_
        have hne : s' ≠ s := ne_of_mem_of_not_mem hs' hs
        rw [weightAt, weightAt, hu.stored.load, Function.update_of_ne hne]
      have htotal := hu.stored.total (recordWeight rs · counter)
      have hle := ih hslots (ReadWrite.unlink t s).2
      have hweight : weightAt rs t counter s = recordWeight rs record counter := by
        rw [weightAt, hload]
        rfl
      rw [hload, Option.elim_some, Option.elim_none] at htotal
      rw [hrest, hweight]
      omega

theorem length_le_chainingEntries (t : SharedHashTable setting)
    {entries : List (setting.BucketIndex × Nat)} (hentries : entries.Nodup)
    (hlt : ∀ e ∈ entries, 0 < e.2 ∧ e.2 < t.buckets[e.1].chainLength) :
    (entries.length : Int) ≤ t.chainingEntries := by
  have hfiber (i : setting.BucketIndex) :
      ((entries.toFinset.filter (·.1 = i)).card : Int) ≤ t.buckets[i].chainLength - 1 := by
    have hsub : entries.toFinset.filter (·.1 = i) ⊆
        (Finset.Ico 1 t.buckets[i].chainLength).image fun n => (i, n) := by
      intro e he
      obtain ⟨hmem, rfl⟩ := Finset.mem_filter.mp he
      obtain ⟨hpos, hlt⟩ := hlt e (List.mem_toFinset.mp hmem)
      exact Finset.mem_image.mpr ⟨e.2, Finset.mem_Ico.mpr ⟨hpos, hlt⟩, rfl⟩
    have hcard := (Finset.card_le_card hsub).trans Finset.card_image_le
    rw [Nat.card_Ico] at hcard
    have hpos := t.buckets[i].chainLength_pos
    omega
  rw [← List.toFinset_card_of_nodup hentries,
    Finset.card_eq_sum_card_fiberwise (f := Prod.fst) (t := Finset.univ)
      fun e _ => Finset.mem_univ e.1, Nat.cast_sum]
  exact Finset.sum_le_sum fun i _ => hfiber i

end Weights

section Cache
variable [Platform] {others : List (Thread setting)} {t t' : Table (CacheConfig setting options)}
  {th th' : Thread setting} {label : Label setting}

/-- The loads of `CalculateNumBytesToFree` are of counters that are not negative. -/
def Phase.Reads : Phase setting → Prop
  | .calculating _ _ unread totalDataSize =>
    0 ≤ totalDataSize ∧ ∀ counter ∈ unread, Counted counter
  | _ => True

/-- A thread that counts a record finds it in its slot. -/
structure Counting (t : SharedHashTable setting) (th : Thread setting) : Prop where
  adds : ∀ counter, Counted counter → th.Adds counter
  stored : ∀ s ∈ th.slots, ∃ record, t.load s = some record
  entries : ∀ e ∈ th.entries, 0 < e.2 ∧ e.2 < t.buckets[e.1].chainLength
  gains : ∀ counter, Counted counter → th.gains counter ≤
    (th.slots.map (weightAt setting.cacheRecordSerializer t counter)).sum +
      th.entries.length * entryWeight counter
  reads : th.phase.Reads

omit [Platform] in
theorem slots_of_no_updates (hupdates : th.updates = []) : th.slots = [] ∧ th.entries = [] := by
  simp only [Thread.slots, Thread.entries, hupdates, if_true]
  split <;> split <;> simp

omit [Platform] in
theorem slots_of_updates {u : PerfUpdate} {tasks : List Task} {phase : Phase setting}
    (hupdates : (⟨tasks, phase⟩ : Thread setting).updates ≠ []) :
    (⟨tasks, phase⟩ : Thread setting).slots =
        (⟨.update u :: tasks, phase⟩ : Thread setting).slots ∧
      (⟨tasks, phase⟩ : Thread setting).entries =
        (⟨.update u :: tasks, phase⟩ : Thread setting).entries := by
  have hcons : (⟨.update u :: tasks, phase⟩ : Thread setting).updates ≠ [] := List.cons_ne_nil _ _
  simp only [Thread.slots, Thread.entries, if_neg hupdates, if_neg hcons, and_self]

omit [Platform] in
theorem counting_of_no_updates {t : SharedHashTable setting} (hupdates : th.updates = [])
    (hreads : th.phase.Reads) : Counting t th := by
  obtain ⟨hslots, hentries⟩ := slots_of_no_updates hupdates
  refine ⟨fun counter _ u hu => ?_, ?_, ?_, fun counter _ => ?_, hreads⟩
  · have hmem : u ∈ th.updates := List.mem_filterMap.mpr ⟨.update u, hu, rfl⟩
    rw [hupdates] at hmem
    cases hmem
  · simp [hslots]
  · simp [hentries]
  · simp [Thread.gains, hupdates, hslots, hentries]

/-- What a step leaves to the threads that count records. -/
structure Framed (label : Label setting) (t t' : SharedHashTable setting) : Prop where
  chainLength : ∀ i : setting.BucketIndex, t.buckets[i].chainLength ≤ t'.buckets[i].chainLength
  load : ∀ s record, t.load s = some record → label.takes ≠ some s →
    ∃ record', t'.load s = some record' ∧ ∀ counter,
      recordWeight setting.cacheRecordSerializer record' counter =
        recordWeight setting.cacheRecordSerializer record counter

omit [Platform] in
theorem Framed.of_buckets {t t' : SharedHashTable setting} (h : t'.buckets = t.buckets) :
    Framed label t t' where
  chainLength i := by rw [h]
  load s record hload _ := ⟨record, by rwa [SharedHashTable.load_congr h], fun _ => rfl⟩

omit [Platform] in
theorem Framed.of_stored {t t' : SharedHashTable setting}
    (h : t.Stored s data newTag t')
    (hs : ∀ record, t.load s = some record → label.takes ≠ some s → ∃ record',
      data = some record' ∧ ∀ counter,
        recordWeight setting.cacheRecordSerializer record' counter =
          recordWeight setting.cacheRecordSerializer record counter) :
    Framed label t t' where
  chainLength i := by
    by_cases hi : i = s.1
    · rw [hi]
      exact h.chainLength_le
    · rw [h.other i hi]
  load s' record hload htakes := by
    rw [h.load]
    by_cases heq : s' = s
    · rw [heq] at hload htakes ⊢
      rw [Function.update_self]
      exact hs record hload htakes
    · rw [Function.update_of_ne heq]
      exact ⟨record, hload, fun _ => rfl⟩

omit [Platform] in
theorem Framed.of_keeps {t t' : SharedHashTable setting} (h : Cache.Touched t s record' t')
    (hload : t.load s = some record)
    (hkeeps : Cache.Keeps setting.cacheRecordSerializer (fun _ => True) record record') :
    Framed label t t' := by
  obtain ⟨-, hkey, hvalue⟩ := hkeeps trivial
  refine .of_stored h.stored fun r hr _ => ⟨record', rfl, fun counter => ?_⟩
  obtain rfl := Option.some.inj (hload.symm.trans hr)
  cases counter <;> simp [recordWeight, hkey, hvalue]

theorem Act.framed (h : Act (CacheConfig setting options) others t th label t' th')
    (hs : Sound setting.cacheRecordSerializer (fun _ => True) t.hashTable) :
    Framed label t.hashTable t'.hashTable := by
  have hP := Cache.keeps_of_updateAccessStatus setting.cacheRecordSerializer
  cases h with
  | visitStays hcache hload hvisit =>
    obtain rfl := Option.some.inj hcache
    exact .of_keeps (Cache.touched_setBucket hload _) hload (KeptByAccess.visit hP hvisit)
  | visitRemoves hcache hload hvisit =>
    exact .of_stored (ReadWrite.unlinked_of_load hload).stored
      fun record _ htakes => absurd rfl htakes
  | createRecordBuffer curEpochTime hcreate =>
    obtain ⟨allocator, rfl, -⟩ := createRecordBuffer_allocates hcreate
    exact .of_buckets rfl
  | createRecordBufferThrows curEpochTime hcreate =>
    obtain ⟨allocator, rfl, -⟩ := createRecordBuffer_allocates hcreate
    exact .of_buckets rfl
  | @add _ _ _ _ _ recordToDelete _ _ hinfo hlock hslot hpublish =>
    have hp := published_of_scan hs.consistent hinfo hslot hpublish
    refine .of_stored hp.stored fun record hload htakes => ?_
    have hreplaced := hp.replaced.trans hload
    rw [hreplaced] at htakes
    exact absurd rfl htakes
  | remove hinfo hlock hfind =>
    have hload : t.hashTable.load (_, _) = some _ := (Bucket.find?_some hfind).1
    exact .of_stored (ReadWrite.unlinked_of_load hload).stored
      fun record _ htakes => absurd rfl htakes
  | touch s r =>
    change Framed _ _ (TableThreads.touch t.hashTable setting.cacheRecordSerializer s r.address)
    rcases touch_cases t.hashTable setting.cacheRecordSerializer s r.address with
      heq | ⟨record, hload, heq⟩
    · rw [heq]
      exact .of_buckets rfl
    · rw [heq]
      exact .of_keeps (Cache.touched_setBucket hload _) hload (hP record true)
  | _ => exact .of_buckets rfl

omit [Platform] in
theorem Counting.framed {t t' : SharedHashTable setting} (h : Counting t th)
    (hframed : Framed label t t') (htakes : ∀ s, label.takes = some s → s ∉ th.slots) :
    Counting t' th := by
  have hload (s : setting.Slot) (hs : s ∈ th.slots) : ∃ record', t'.load s = some record' ∧
      ∀ counter, weightAt setting.cacheRecordSerializer t' counter s =
        weightAt setting.cacheRecordSerializer t counter s := by
    obtain ⟨record, hrecord⟩ := h.stored s hs
    obtain ⟨record', hrecord', hweight⟩ := hframed.load s record hrecord
      fun heq => htakes s heq hs
    refine ⟨record', hrecord', fun counter => ?_⟩
    rw [weightAt, weightAt, hrecord, hrecord']
    exact hweight counter
  refine ⟨h.adds, fun s hs => ?_, fun e he => ?_, fun counter hc => ?_, h.reads⟩
  · obtain ⟨record', hrecord', -⟩ := hload s hs
    exact ⟨record', hrecord'⟩
  · obtain ⟨hpos, hlt⟩ := h.entries e he
    exact ⟨hpos, Nat.lt_of_lt_of_le hlt (hframed.chainLength e.1)⟩
  · have hmap : th.slots.map (weightAt setting.cacheRecordSerializer t' counter) =
        th.slots.map (weightAt setting.cacheRecordSerializer t counter) :=
      List.map_congr_left fun s hs => (hload s hs).choose_spec.2 counter
    rw [hmap]
    exact h.gains counter hc

section Own

omit [Platform] in
theorem updates_append (us : List PerfUpdate) (tasks : List Task) (phase : Phase setting) :
    (⟨us.map .update ++ tasks, phase⟩ : Thread setting).updates =
      us ++ (⟨tasks, phase⟩ : Thread setting).updates := by
  simp only [Thread.updates, List.filterMap_append, List.filterMap_map]
  congr 1
  exact List.filterMap_some

omit [Platform] in
theorem updates_releases (records : List RecordBuffer) (phase : Phase setting) :
    (⟨records.map .release, phase⟩ : Thread setting).updates = [] := by
  simp [Thread.updates, List.filterMap_map]

omit [Platform] in
theorem Counting.update {t : SharedHashTable setting} {u : PerfUpdate} {tasks : List Task}
    {phase : Phase setting} (h : Counting t ⟨.update u :: tasks, phase⟩) :
    Counting t ⟨tasks, phase⟩ := by
  by_cases hupdates : (⟨tasks, phase⟩ : Thread setting).updates = []
  · exact counting_of_no_updates hupdates h.reads
  · obtain ⟨hslots, hentries⟩ := slots_of_updates (u := u) hupdates
    refine ⟨fun counter hc u' hu' => h.adds counter hc u' (List.mem_cons_of_mem _ hu'),
      hslots ▸ h.stored, hentries ▸ h.entries, fun counter hc => ?_, h.reads⟩
    have hgains : (⟨.update u :: tasks, phase⟩ : Thread setting).gains counter =
        max 0 (u.delta counter) + (⟨tasks, phase⟩ : Thread setting).gains counter := rfl
    have hle := h.gains counter hc
    rw [hslots, hentries]
    omega

omit [Platform] in
theorem counting_of_gains {t : SharedHashTable setting} {tasks : List Task} {phase : Phase setting}
    (hphase : ∀ s isNewEntryAdded, phase ≠ .counting s isNewEntryAdded) (hreads : phase.Reads)
    (hadds : ∀ counter, Counted counter → (⟨tasks, phase⟩ : Thread setting).Adds counter)
    (hgains : ∀ counter, Counted counter → (⟨tasks, phase⟩ : Thread setting).gains counter = 0) :
    Counting t ⟨tasks, phase⟩ := by
  have hslots : (⟨tasks, phase⟩ : Thread setting).slots = [] := by
    cases phase with
    | counting s isNewEntryAdded => exact absurd rfl (hphase s isNewEntryAdded)
    | _ => rfl
  have hentries : (⟨tasks, phase⟩ : Thread setting).entries = [] := by
    cases phase with
    | counting s isNewEntryAdded => exact absurd rfl (hphase s isNewEntryAdded)
    | _ => rfl
  refine ⟨hadds, by simp [hslots], by simp [hentries], fun counter hc => ?_, hreads⟩
  rw [hgains counter hc, hslots, hentries]
  simp

omit [Platform] in
theorem gains_removed (rs : RecordSerializer) (record : RecordBuffer)
    (counter : HashTablePerfCounter) :
    ((perfUpdatesForRemoved rs record).map fun u => max 0 (u.delta counter)).sum = 0 := by
  cases counter <;>
    simp [perfUpdatesForRemoved, ReadWrite.updatePerfDataForRemove, PerfUpdate.delta,
      PerfUpdate.decrement, PerfUpdate.subtract]

omit [Platform] in
theorem delta_nonneg_of_new (rs : RecordSerializer) (counter : HashTablePerfCounter)
    {stat : ReadWrite.Stat} (hold : stat.oldValueSize = 0) :
    ∀ u ∈ updatePerfDataForAdd rs stat, 0 ≤ u.delta counter := by
  have hadd (c : HashTablePerfCounter) (v : Int) (hv : 0 ≤ v) :
      0 ≤ (PerfUpdate.add c v).delta counter := by
    rw [PerfUpdate.delta]
    split_ifs <;> omega
  intro u hu
  rw [updatePerfDataForAdd, if_neg (not_not.mpr hold)] at hu
  simp only [List.mem_append, List.mem_cons, List.not_mem_nil, or_false] at hu
  rcases hu with ((rfl | rfl | rfl | rfl | rfl | rfl) | hu) | rfl | rfl
  · exact hadd _ _ (Int.natCast_nonneg _)
  · exact hadd _ _ (Int.natCast_nonneg _)
  · exact hadd _ _ (Int.add_nonneg (Int.natCast_nonneg _) (Int.natCast_nonneg _))
  · exact Int.le_refl 0
  · exact Int.le_refl 0
  · exact hadd _ 1 (by decide)
  · split_ifs at hu
    · simp only [List.mem_cons, List.not_mem_nil, or_false] at hu
      rcases hu with rfl | rfl
      · exact hadd _ 1 (by decide)
      · exact Int.le_refl 0
    · rw [List.mem_singleton.mp hu]
      exact hadd _ 1 (by decide)
    · cases hu
  · exact Int.le_refl 0
  · exact Int.le_refl 0

theorem gains_published {t t' : SharedHashTable setting}
    (hp : Published rs t record s stat old t') (hc : Counted counter) :
    ((updatePerfDataForAdd rs stat).map fun u => max 0 (u.delta counter)).sum ≤
      recordWeight rs record counter + if stat.isNewEntryAdded then entryWeight counter else 0 := by
  by_cases hold : stat.oldValueSize = 0
  · have hsum : (updatePerfDataForAdd rs stat).map (fun u => max 0 (u.delta counter)) =
        (updatePerfDataForAdd rs stat).map (PerfUpdate.delta counter) :=
      List.map_congr_left fun u hu => max_eq_right (delta_nonneg_of_new rs counter hold u hu)
    have hcontents := contents_published hp hc
    have hexcess : (Label.publish s record old).excess rs counter ≤
        (t.load s).elim 0 (recordWeight rs · counter) := by
      rw [hp.replaced]
      cases t.load s with
      | none => exact Int.le_refl 0
      | some r =>
        rw [Label.excess, Option.elim_some]
        split_ifs
        · exact Int.le_refl _
        · exact recordWeight_nonneg rs r counter
    rw [hp.contents] at hcontents
    rw [hsum]
    omega
  · have hnew := entryWeight_nonneg counter
    have hweight := recordWeight_nonneg rs record counter
    have hsum : ((updatePerfDataForAdd rs stat).map fun u => max 0 (u.delta counter)).sum =
        max 0 ((PerfUpdate.add .totalValueSize (stat.valueSize - stat.oldValueSize)).delta
          counter) := by
      rw [updatePerfDataForAdd, if_pos hold]
      exact Int.add_zero _
    have hentry : 0 ≤ if stat.isNewEntryAdded then entryWeight counter else 0 := by
      split_ifs
      · exact hnew
      · exact Int.le_refl 0
    have hvalue : HashTablePerfCounter.totalValueSize = counter →
        recordWeight rs record counter = stat.valueSize := by
      rintro rfl
      rw [hp.valueSize]
      rfl
    rw [hsum, PerfUpdate.delta]
    by_cases hcounter : HashTablePerfCounter.totalValueSize = counter
    · have heq := hvalue hcounter
      rw [if_pos hcounter]
      omega
    · rw [if_neg hcounter]
      omega

omit [Platform] in
theorem slots_published (rs : RecordSerializer) (stat : ReadWrite.Stat)
    (records : List RecordBuffer) (s : setting.Slot) (isNewEntryAdded : Bool) :
    let th : Thread setting := ⟨(updatePerfDataForAdd rs stat).map .update ++
      records.map .release, .counting s isNewEntryAdded⟩
    th.updates = updatePerfDataForAdd rs stat ∧ th.slots = [s] ∧
      th.entries = if isNewEntryAdded then [(s.1, s.2.entry)] else [] := by
  intro th
  have hne : updatePerfDataForAdd rs stat ≠ [] :=
    List.append_ne_nil_of_right_ne_nil _ (List.cons_ne_nil _ _)
  have hupdates : th.updates = updatePerfDataForAdd rs stat := by
    rw [updates_append, updates_releases, List.append_nil]
  refine ⟨hupdates, ?_, ?_⟩
  · simp only [Thread.slots, hupdates, if_neg hne, th]
  · cases isNewEntryAdded with
    | false => rfl
    | true => simp only [Thread.entries, hupdates, if_neg hne, if_true, th]

theorem Counting.published {t t' : SharedHashTable setting}
    (hp : Published setting.cacheRecordSerializer t record s stat old t')
    (records : List RecordBuffer) :
    Counting t' ⟨(updatePerfDataForAdd setting.cacheRecordSerializer stat).map .update ++
      records.map .release, .counting s stat.isNewEntryAdded⟩ := by
  obtain ⟨hupdates, hslots, hentries⟩ := slots_published setting.cacheRecordSerializer stat records
    s stat.isNewEntryAdded
  have hload : t'.load s = some record := by rw [hp.stored.load, Function.update_self]
  refine ⟨fun counter hc => adds_updates (updatePerfDataForAdd_summed _ _ (.inl hc)) ?_,
    fun s' hs' => ?_, fun e he => ?_, fun counter hc => ?_, trivial⟩
  · intro u hu
    obtain ⟨_, -, hrecord⟩ := List.mem_map.mp hu
    cases hrecord
  · rw [hslots, List.mem_singleton] at hs'
    exact ⟨record, hs' ▸ hload⟩
  · rw [hentries] at he
    split_ifs at he with hnew
    · have hlast : s.2.entry = t.buckets[s.1].chainLength :=
        of_decide_eq_true (hp.isNewEntryAdded.symm.trans hnew)
      rw [List.mem_singleton.mp he]
      exact ⟨hlast ▸ t.buckets[s.1].chainLength_pos, hp.stored.entry_lt⟩
    · cases he
  · have hgains := gains_published hp hc
    have hweight : weightAt setting.cacheRecordSerializer t' counter s =
        recordWeight setting.cacheRecordSerializer record counter := by
      rw [weightAt, hload]
      rfl
    rw [Thread.gains, hupdates, hslots, hentries]
    cases hnew : stat.isNewEntryAdded <;> simpa [hweight, hnew] using hgains

omit [Platform] in
theorem reads_calculate (record : Record) (locked : Bool) :
    (calculate record locked : Phase setting).Reads :=
  ⟨Int.le_refl 0, by simp [Counted]⟩

theorem Act.counting (h : Act (CacheConfig setting options) others t th label t' th')
    (hs : Sound setting.cacheRecordSerializer (fun _ => True) t.hashTable)
    (hnonneg : ∀ counter, Counted counter → 0 ≤ t.hashTable.perfData counter)
    (hth : Counting t.hashTable th) : Counting t'.hashTable th' := by
  have hremoved (r : RecordBuffer) (tasks : List Task) (phase : Phase setting)
      (hphase : ∀ s isNewEntryAdded, phase ≠ .counting s isNewEntryAdded) (hreads : phase.Reads)
      (htasks : (⟨tasks, phase⟩ : Thread setting).updates = [] ∨
        (⟨tasks, phase⟩ : Thread setting).updates = [.increment .evictedRecordsCount]) :
      Counting t'.hashTable ⟨(perfUpdatesForRemoved setting.cacheRecordSerializer r).map .update ++
        tasks, phase⟩ := by
    refine counting_of_gains hphase hreads (fun counter _ => adds_updates
      (ReadWrite.perfUpdatesForRemoved_adds _ counter r) fun u hu => ?_) fun counter hc => ?_
    · have hmem : u ∈ (⟨tasks, phase⟩ : Thread setting).updates :=
        List.mem_filterMap.mpr ⟨.update u, hu, rfl⟩
      rcases htasks with htasks | htasks
      · rw [htasks] at hmem
        cases hmem
      · rw [htasks, List.mem_singleton] at hmem
        rw [hmem]
        trivial
    · have hne : HashTablePerfCounter.evictedRecordsCount ≠ counter := by
        rintro rfl
        simp [Counted] at hc
      rw [Thread.gains, updates_append, List.map_append, List.sum_append, gains_removed]
      rcases htasks with htasks | htasks
      · rw [htasks]
        rfl
      · rw [htasks]
        simp [PerfUpdate.delta, PerfUpdate.increment, hne]
  have hincrement (counter : HashTablePerfCounter) (hcounter : ¬ Counted counter)
      (phase : Phase setting)
      (hphase : ∀ s isNewEntryAdded, phase ≠ .counting s isNewEntryAdded) (hreads : phase.Reads) :
      Counting t'.hashTable ⟨[.update (.increment counter)], phase⟩ := by
    refine counting_of_gains hphase hreads (fun counter' _ u hu => ?_) fun counter' hc' => ?_
    · obtain rfl := Task.update.inj (List.mem_singleton.mp hu)
      trivial
    · have hne : counter ≠ counter' := fun heq => hcounter (heq ▸ hc')
      simp [Thread.gains, Thread.updates, PerfUpdate.delta, PerfUpdate.increment, hne]
  cases h with
  | update u tasks =>
    have hframed : Framed .silent t.hashTable (t.hashTable.updatePerfData [u]) := .of_buckets rfl
    exact hth.update.framed hframed fun _ hslot => by cases hslot
  | release record tasks =>
    exact ⟨fun counter hc u hu => hth.adds counter hc u (List.mem_cons_of_mem _ hu), hth.stored,
      hth.entries, hth.gains, hth.reads⟩
  | callAdd record =>
    refine counting_of_no_updates rfl ?_
    simp only [startAdd]
    split_ifs
    · trivial
    · exact reads_calculate record false
  | endSweep record sweep =>
    refine counting_of_no_updates rfl ?_
    cases sweep with
    | basedOnTime curEpochTime => exact reads_calculate record false
    | clock curEpochTime numIterationsRemaining numBytesToFree => trivial
  | calculate hcache curEpochTime =>
    refine counting_of_no_updates rfl ?_
    simp only [afterCalculate]
    split_ifs <;> trivial
  | lockEvictMutex hmutex => exact counting_of_no_updates rfl (reads_calculate _ true)
  | readCounter before after counter =>
    obtain ⟨hsum, hunread⟩ := hth.reads
    refine counting_of_no_updates rfl ⟨?_, fun counter' hc' => hunread counter' ?_⟩
    · exact Int.add_nonneg hsum (hnonneg counter (hunread counter (by simp)))
    · rcases List.mem_append.mp hc' with hc' | hc'
      · exact List.mem_append_left _ hc'
      · exact List.mem_append_right _ (List.mem_cons_of_mem _ hc')
  | visitRemoves hcache hload hvisit => exact hremoved _ _ _ (by simp) trivial (.inr rfl)
  | add hinfo hlock hslot hpublish =>
    exact .published (published_of_scan hs.consistent hinfo hslot hpublish) _
  | remove hinfo hlock hfind => exact hremoved _ _ _ (by simp) trivial (.inl rfl)
  | touch s r => exact hincrement .cacheHitCount (by simp [Counted]) _ (by simp) trivial
  | getMisses => exact hincrement .cacheMissCount (by simp [Counted]) _ (by simp) trivial
  | _ => exact counting_of_no_updates rfl trivial

/-- Only the publication of a record gives a thread something to count. -/
theorem Act.owns (h : Act (CacheConfig setting options) others t th label t' th')
    (hs : Sound setting.cacheRecordSerializer (fun _ => True) t.hashTable) :
    (th'.slots.Sublist th.slots ∧ th'.entries.Sublist th.entries) ∨
    ∃ s record, label = .publish s record (t.hashTable.load s) ∧ th'.slots = [s] ∧
      (th'.entries = [] ∨
        th'.entries = [(s.1, s.2.entry)] ∧ s.2.entry = t.hashTable.buckets[s.1].chainLength) := by
  have hdone (phase : Phase setting) : (⟨[], phase⟩ : Thread setting).slots.Sublist th.slots ∧
      (⟨[], phase⟩ : Thread setting).entries.Sublist th.entries := by
    obtain ⟨hslots, hentries⟩ :
        (⟨[], phase⟩ : Thread setting).slots = [] ∧ (⟨[], phase⟩ : Thread setting).entries = [] :=
      slots_of_no_updates rfl
    rw [hslots, hentries]
    exact ⟨List.nil_sublist _, List.nil_sublist _⟩
  cases h with
  | @update _ phase u tasks =>
    by_cases hupdates : (⟨tasks, phase⟩ : Thread setting).updates = []
    · obtain ⟨hslots, hentries⟩ := slots_of_no_updates hupdates
      rw [hslots, hentries]
      exact .inl ⟨List.nil_sublist _, List.nil_sublist _⟩
    · obtain ⟨hslots, hentries⟩ := slots_of_updates (u := u) hupdates
      rw [hslots, hentries]
      exact .inl ⟨.refl _, .refl _⟩
  | release record tasks => exact .inl ⟨.refl _, .refl _⟩
  | callAdd record => exact .inl (hdone _)
  | endSweep record sweep => exact .inl (hdone _)
  | calculate hcache curEpochTime => exact .inl (hdone _)
  | @add recordToAdd i _ p stat recordToDelete _ _ hinfo hlock hslot hpublish =>
    have hp := published_of_scan hs.consistent hinfo hslot hpublish
    obtain ⟨-, hslots, hentries⟩ := slots_published setting.cacheRecordSerializer stat
      recordToDelete.toList (i, p) stat.isNewEntryAdded
    refine .inr ⟨(i, p), recordToAdd, congrArg _ hp.replaced, hslots, ?_⟩
    split_ifs at hentries with hnew
    · exact .inr ⟨hentries, of_decide_eq_true (hp.isNewEntryAdded.symm.trans hnew)⟩
    · exact .inl hentries
  | _ => exact .inl ⟨List.nil_sublist _, List.nil_sublist _⟩

end Own

omit [Platform] in
theorem excess_nonneg (rs : RecordSerializer) (counter : HashTablePerfCounter)
    (label : Label setting) : 0 ≤ label.excess rs counter := by
  cases label with
  | publish s record old =>
    cases old with
    | none => exact Int.le_refl 0
    | some old =>
      rw [Label.excess]
      split_ifs
      · exact recordWeight_nonneg rs old counter
      · exact Int.le_refl 0
  | _ => exact Int.le_refl 0

/-- The threads count different slots and different entries, and the counters are off by at most
what the threads have still to add. -/
structure CountsOnce (t : SharedHashTable setting) (threads : List (Thread setting)) : Prop where
  sound : Sound setting.cacheRecordSerializer (fun _ => True) t
  counting : ∀ th ∈ threads, Counting t th
  slots : (threads.flatMap Thread.slots).Nodup
  entries : (threads.flatMap Thread.entries).Nodup
  counters : ∀ counter, Counted counter →
    0 ≤ slack counter t + (threads.map fun th => th.owed counter).sum

omit [Platform] in
theorem sum_owed_le {t : SharedHashTable setting} {threads : List (Thread setting)}
    (h : ∀ th ∈ threads, Counting t th) (hc : Counted counter) :
    (threads.map fun th => th.owed counter).sum ≤
      ((threads.flatMap Thread.slots).map
        (weightAt setting.cacheRecordSerializer t counter)).sum +
        (threads.flatMap Thread.entries).length * entryWeight counter := by
  induction threads with
  | nil => simp
  | cons th threads ih =>
    have howed := th.owed_le_gains counter
    have hgains := (h th List.mem_cons_self).gains counter hc
    have hrest := ih fun th' hth' => h th' (List.mem_cons_of_mem _ hth')
    simp only [List.map_cons, List.sum_cons, List.flatMap_cons, List.map_append, List.sum_append,
      List.length_append, Nat.cast_add, Int.add_mul]
    omega

theorem CountsOnce.le_perfData {t : SharedHashTable setting} {threads : List (Thread setting)}
    (h : CountsOnce t threads) (hc : Counted counter) :
    emptyContents setting counter ≤ t.perfData counter := by
  have hslots := sum_weightAt_le setting.cacheRecordSerializer counter h.slots t
  have hentries : ∀ e ∈ threads.flatMap Thread.entries,
      0 < e.2 ∧ e.2 < t.buckets[e.1].chainLength := by
    intro e he
    obtain ⟨th, hth, he⟩ := List.mem_flatMap.mp he
    exact (h.counting th hth).entries e he
  have hlength := Int.mul_le_mul_of_nonneg_right
    (length_le_chainingEntries t h.entries hentries) (entryWeight_nonneg counter)
  have howed := sum_owed_le h.counting hc
  have hslack := h.counters counter hc
  rw [slack, contents] at hslack
  omega

theorem emptyContents_nonneg (setting : Setting) (counter : HashTablePerfCounter) :
    0 ≤ emptyContents setting counter := by
  cases counter <;> simp [emptyContents]

theorem CountsOnce.step {p p' : System (CacheConfig setting options)}
    (h : CountsOnce p.shared.hashTable p.threads)
    (hstep : Transition.Guarded CountedFirst (Step (CacheConfig setting options)) p label p') :
    CountsOnce p'.shared.hashTable p'.threads := by
  obtain ⟨hfirst, hstep⟩ := hstep
  have hP := Cache.keeps_of_updateAccessStatus setting.cacheRecordSerializer
  have hnonneg (counter : HashTablePerfCounter) (hc : Counted counter) :
      0 ≤ p.shared.hashTable.perfData counter :=
    (emptyContents_nonneg setting counter).trans (h.le_perfData hc)
  refine ⟨?_, ?_, ?_, ?_, fun counter hc => ?_⟩
  · cases hstep with
    | intro before after hact => exact hact.sound hP h.sound (carries_true _)
  · exact hstep.forall (I := fun t th => Counting t.hashTable th)
      (fun _ _ _ _ hact hth => hact.counting h.sound hnonneg hth)
      (fun _ _ _ _ hact x _ hx hcounting => hcounting.framed (hact.framed h.sound)
        fun s htakes => hfirst s htakes x hx) h.counting
  · refine hstep.nodup (f := fun th => Thread.slots th)
      (fun others t' th' th hth hothers hact hnodup => ?_) h.slots
    rcases hact.owns h.sound with ⟨hsub, -⟩ | ⟨s, record, rfl, hslots, -⟩
    · exact hnodup.sublist (hsub.append_right _)
    · rw [hslots]
      refine List.nodup_cons.mpr ⟨fun hs => ?_, (List.nodup_append.mp hnodup).2.1⟩
      obtain ⟨x, hx, hs⟩ := List.mem_flatMap.mp hs
      obtain ⟨r, hload⟩ := (h.counting x (hothers x hx)).stored s hs
      rw [hload] at hfirst
      exact hfirst s rfl x (hothers x hx) hs
  · refine hstep.nodup (f := fun th => Thread.entries th)
      (fun others t' th' th hth hothers hact hnodup => ?_) h.entries
    have hrest := (List.nodup_append.mp hnodup).2.1
    rcases hact.owns h.sound with ⟨-, hsub⟩ | ⟨s, record, rfl, -, hentries | ⟨hentries, hlast⟩⟩
    · exact hnodup.sublist (hsub.append_right _)
    · rw [hentries]
      exact hrest
    · rw [hentries]
      refine List.nodup_cons.mpr ⟨fun he => ?_, hrest⟩
      obtain ⟨x, hx, he⟩ := List.mem_flatMap.mp he
      obtain ⟨-, hlt⟩ := (h.counting x (hothers x hx)).entries _ he
      exact Nat.lt_irrefl _ (hlast ▸ hlt)
  · have hbalance := ThreadPool.Step.balance
      (g := fun (t : Table (CacheConfig setting options)) => slack counter t.hashTable)
      (f := fun (th : Thread setting) => th.owed counter) hstep fun _ _ _ th hth hact =>
        hact.counters hP h.sound ((h.counting th hth).adds counter hc) hc
    refine (Int.add_nonneg (h.counters counter hc)
      (excess_nonneg setting.cacheRecordSerializer counter label)).trans_eq hbalance.symm

theorem initial_countsOnce (setting : Setting) (options : Options) (allocator : Allocator)
    (numThreads : Nat) :
    CountsOnce (initial (CacheConfig setting options) allocator numThreads).shared.hashTable
      (initial (CacheConfig setting options) allocator numThreads).threads := by
  have hquiescent := quiescent_initial (CacheConfig setting options) allocator numThreads
  refine ⟨Cache.sound_create _ _ allocator, fun th hth => ?_, ?_, ?_, fun counter hc => ?_⟩
  · rw [hquiescent th hth]
    exact counting_of_no_updates rfl trivial
  · rw [hquiescent.flatMap_eq_nil rfl]
    exact List.nodup_nil
  · rw [hquiescent.flatMap_eq_nil rfl]
    exact List.nodup_nil
  · exact ((initial_invariant setting options allocator numThreads).counters counter hc).ge

/-- In a run in which records are counted before they are removed or replaced, no sum that
`CalculateNumBytesToFree` reads is negative. -/
theorem calculate_nonneg (setting : Setting) (options : Options) (allocator : Allocator)
    (numThreads : Nat) (labels : List (Label setting)) (p : System (CacheConfig setting options))
    (hrun : Transition.Run
      (Transition.Guarded CountedFirst (Step (CacheConfig setting options)))
      (initial (CacheConfig setting options) allocator numThreads) labels p) :
    ∀ totalDataSize, .calculate totalDataSize ∈ labels → 0 ≤ totalDataSize := by
  intro totalDataSize hmem
  obtain ⟨before, after, rfl⟩ := List.append_of_mem hmem
  obtain ⟨p₁, hbefore, hafter⟩ := hrun.split
  have h := hbefore.invariant (I := fun p => CountsOnce p.shared.hashTable p.threads)
    (fun _ _ _ h hstep => h.step hstep)
    (initial_countsOnce setting options allocator numThreads)
  cases hafter with
  | cons hstep hrest =>
    obtain ⟨-, hstep⟩ := hstep
    cases hstep with
    | intro before' after' hact =>
      cases hact with
      | calculate hcache curEpochTime =>
        exact (h.counting _ (List.mem_append_right _ List.mem_cons_self)).reads.1

omit [Platform] in
theorem totalDataSize_removed (rs : RecordSerializer) (record : RecordBuffer)
    (perfData : HashTablePerfData) :
    Cache.totalDataSize (PerfUpdate.applyAll perfData (perfUpdatesForRemoved rs record)) =
      Cache.totalDataSize perfData - Cache.recordSize rs record := by
  have hcounter (counter : HashTablePerfCounter) :
      PerfUpdate.applyAll perfData (perfUpdatesForRemoved rs record) counter =
        perfData counter - recordWeight rs record counter := by
    rw [PerfUpdate.applyAll_of_adds _ (ReadWrite.perfUpdatesForRemoved_adds rs counter record),
      ReadWrite.perfUpdatesForRemoved_delta]
    rfl
  rw [Cache.recordSize, Cache.totalDataSize, hcounter, hcounter, hcounter, Cache.totalDataSize,
    Cache.totalDataSize]
  omega

theorem run_countedFirst {p p' : System config} (hrun : Transition.Run (Step config) p labels p')
    (htakes : ∀ l ∈ labels, l.takes = none) :
    Transition.Run (Transition.Guarded CountedFirst (Step config)) p labels p' := by
  refine (hrun.guarded htakes).mono fun p l p' h => ⟨fun s hs => ?_, h.2⟩
  rw [h.1] at hs
  cases hs

omit [Platform] in
/-- An `Add` reads the counters after another one has published a record and before that one has
counted it. -/
theorem calculate_nonneg_of_published :
    let _ : Platform := ⟨fun _ => (7, 0), 8, 64⟩
    let config := CacheConfig {} ⟨1000, 100, false⟩
    ∃ labels p totalDataSize, Transition.Run (Transition.Guarded CountedFirst (Step config))
        (initial config ⟨0, []⟩ 2) labels p ∧
      .calculate totalDataSize ∈ labels ∧ 0 ≤ totalDataSize := by
  intro _ config
  let record : Record := ⟨⟨[1], by decide⟩, ⟨[2], by decide⟩⟩
  let t : Table config := (initial config ⟨0, []⟩ 2).shared
  have hsound : Sound config.setting.cacheRecordSerializer (fun _ => True) t.hashTable :=
    Cache.sound_create _ _ _
  have hlock (i : config.setting.BucketIndex) : Unlocked ([] ++ [⟨[], .idle⟩]) i := by
    simp [Unlocked, Phase.lock]
  have hroom : numBytesToFree ⟨1000, 100, false⟩ (Cache.totalDataSize t.hashTable.perfData)
      record = 0 := by decide +kernel
  obtain ⟨recordToAdd, allocator, s, stat, recordToDelete, hashTable, -, hp, hpublish⟩ :=
    run_publish _ _ hsound.consistent (by decide) rfl hroom (by decide) (by decide) hlock
  obtain rfl : recordToDelete = none :=
    hp.replaced.trans (congrFun (SharedHashTable.load_create _ _) s)
  have hrun := hpublish.append (run_calculate [_] [] rfl record _)
  have hguarded := run_countedFirst hrun (by simp [Label.takes])
  refine ⟨_, _, Cache.totalDataSize hashTable.perfData, hguarded, ?_,
    calculate_nonneg {} _ ⟨0, []⟩ 2 _ _ hguarded _ ?_⟩
  · exact List.mem_append_right _ (by simp [Table.setHashTable])
  · exact List.mem_append_right _ (by simp [Table.setHashTable])

omit [Platform] in
/-- One thread publishes a record, and another one removes it and takes it off the counters before
the first has counted it. -/
theorem calculate_underflows :
    let _ : Platform := ⟨fun _ => (7, 0), 8, 64⟩
    let config := CacheConfig {} ⟨1000, 100, false⟩
    ¬ ∀ labels p, Transition.Run (Step config) (initial config ⟨0, []⟩ 2) labels p →
      ∀ totalDataSize, .calculate totalDataSize ∈ labels → 0 ≤ totalDataSize := by
  intro _ config h
  let record : Record :=
    ⟨⟨[1], by decide⟩, ⟨.replicate 300 0, by rw [List.length_replicate]; decide⟩⟩
  let t : Table config := (initial config ⟨0, []⟩ 2).shared
  have hsound : Sound config.setting.cacheRecordSerializer (fun _ => True) t.hashTable :=
    Cache.sound_create _ _ _
  have hlock (i : config.setting.BucketIndex) : Unlocked ([] ++ [⟨[], .idle⟩]) i := by
    simp [Unlocked, Phase.lock]
  have hroom : numBytesToFree ⟨1000, 100, false⟩ (Cache.totalDataSize t.hashTable.perfData)
      record = 0 := by decide +kernel
  have hlen : record.value.size + 4 < 2 ^ 32 := by decide +kernel
  obtain ⟨recordToAdd, allocator, s, stat, recordToDelete, hashTable, hcached, hp, hpublish⟩ :=
    run_publish _ _ hsound.consistent (by decide) rfl hroom (by decide +kernel) hlen hlock
  let counting : Thread config.setting :=
    ⟨(updatePerfDataForAdd config.setting.cacheRecordSerializer stat).map .update ++
      recordToDelete.toList.map .release, .counting s stat.isNewEntryAdded⟩
  have hlock' (i : config.setting.BucketIndex) : Unlocked ([counting] ++ []) i := by
    simp [Unlocked, Phase.lock, counting]
  have hload : hashTable.load s = some recordToAdd := by
    rw [hp.stored.load, Function.update_self]
  have hconsistent := hp.consistent (hsound.consistent.congr rfl rfl)
  obtain ⟨labels, hashTable', hremove, -, -, hperf⟩ :=
    run_remove (t := t.setHashTable hashTable) [counting] [] hconsistent hload hlock'
  have hrun := (hpublish.append hremove).append (run_calculate [counting] [] rfl record _)
  have hle := h _ _ hrun (Cache.totalDataSize hashTable'.perfData)
    (List.mem_append_right _ (by simp [Table.setHashTable]))
  have hinitial : Cache.totalDataSize t.hashTable.perfData = 224 := by decide +kernel
  have hbytes : (Cache.recordBytes record.key record.value +
      ({} : Setting).cacheRecordSerializer.calculateRecordOverhead : Int) = 311 := by
    decide +kernel
  have hperf' : (t.setHashTable hashTable).hashTable.perfData = t.hashTable.perfData :=
    hp.stored.perfData
  rw [hperf, totalDataSize_removed, hperf', hinitial, hcached.recordSize_eq, hbytes] at hle
  omega

end Cache

end L4.TableThreads
