import Mathlib.Tactic.IntervalCases
import L4.ConcurrentLookupSafety
import L4.Library.Linearizability

namespace L4
set_option autoImplicit true

/-! What a look up without a lock can see of the critical sections. -/

namespace Bucket
variable {rs : RecordSerializer} {tagOf : Key → UInt8} {b : Bucket RecordBuffer}

/-- The record that a look up of its key finds in the slot: the tag has to be that of the key. -/
def visible (rs : RecordSerializer) (tagOf : Key → UInt8) (b : Bucket RecordBuffer)
    (p : SlotIndex) : Option RecordBuffer :=
  (b.load p).filter fun r => b.tag p = tagOf (rs.keyOf r)

theorem visible_eq_some :
    b.visible rs tagOf p = some r ↔ b.load p = some r ∧ b.tag p = tagOf (rs.keyOf r) := by
  rw [visible, Option.filter_eq_some_iff, decide_eq_true_eq]

theorem visible_eq (h : b.load p = some r) :
    b.visible rs tagOf p = if b.tag p = tagOf (rs.keyOf r) then some r else none := by
  simp [visible, h, Option.filter]

theorem visible_eq_none (h : b.load p = none) : b.visible rs tagOf p = none := by
  rw [visible, h]
  rfl

theorem Consistent.visible (h : b.Consistent rs tagOf) : b.visible rs tagOf = b.load := by
  funext p
  cases hp : b.load p with
  | none => exact visible_eq_none hp
  | some r => rw [visible_eq hp, if_pos (h.tags p r hp)]

theorem visible_congr {b' : Bucket RecordBuffer} (hload : b'.load p = b.load p)
    (htag : b'.tag p = b.tag p) : b'.visible rs tagOf p = b.visible rs tagOf p := by
  rw [Bucket.visible, Bucket.visible, hload, htag]

theorem visible_appendEntry (b : Bucket RecordBuffer) :
    b.appendEntry.visible rs tagOf = b.visible rs tagOf :=
  funext fun p => visible_congr (b.load_appendEntry p) (b.tag_appendEntry p)

theorem visible_storeData (hp : p.entry < b.chainLength) (data : Option RecordBuffer) :
    (b.storeData p data).visible rs tagOf = Function.update (b.visible rs tagOf) p
      (data.filter fun r => b.tag p = tagOf (rs.keyOf r)) := by
  funext q
  by_cases hq : q = p
  · subst hq
    rw [Function.update_self, visible, load_storeData, if_pos ⟨rfl, hp⟩, tag_storeData]
  · rw [Function.update_of_ne hq]
    refine visible_congr ?_ (tag_storeData ..)
    rw [load_storeData, if_neg fun h => hq h.1]

theorem visible_storeTag (hp : p.entry < b.chainLength) (t : UInt8) :
    (b.storeTag p t).visible rs tagOf = Function.update (b.visible rs tagOf) p
      ((b.load p).filter fun r => t = tagOf (rs.keyOf r)) := by
  funext q
  by_cases hq : q = p
  · subst hq
    rw [Function.update_self, visible, load_storeTag, tag_storeTag, if_pos ⟨rfl, hp⟩]
  · rw [Function.update_of_ne hq]
    refine visible_congr (load_storeTag ..) ?_
    rw [tag_storeTag, if_neg fun h => hq h.1]

end Bucket

namespace ConcurrentLookup
open SharedHashTable (bucketOf getBucketInfo tagOf)
open Transition (Run)

/-- The stores that remain change nothing that can be seen. -/
inductive Settled (view : Bucket RecordBuffer → SlotIndex → Option RecordBuffer)
    (v : SlotIndex → Option RecordBuffer) : Bucket RecordBuffer → List Store → Prop
  | nil (h : view b = v) : Settled view v b []
  | cons (h : view b = v) (hrest : Settled view v (st.apply b) rest) :
      Settled view v b (st :: rest)

/-- One of the stores that remains changes what can be seen, all at once. -/
inductive Pending (view : Bucket RecordBuffer → SlotIndex → Option RecordBuffer)
    (v v' : SlotIndex → Option RecordBuffer) : Bucket RecordBuffer → List Store → Prop
  | wait (h : view b = v) (hrest : Pending view v v' (st.apply b) rest) :
      Pending view v v' b (st :: rest)
  | switch (h : view b = v) (hrest : Settled view v' (st.apply b) rest) :
      Pending view v v' b (st :: rest)

/-- A way to see the records of a bucket in which `UpdateRecord` happens at one of its stores. -/
structure View (rs : RecordSerializer) (tagOf : Key → UInt8) where
  slots : Bucket RecordBuffer → SlotIndex → Option RecordBuffer
  consistent {b : Bucket RecordBuffer} (h : b.Consistent rs tagOf) : slots b = b.load
  appendEntry (b : Bucket RecordBuffer) : slots b.appendEntry = slots b
  clear {b : Bucket RecordBuffer} {p : SlotIndex} (h : b.Consistent rs tagOf)
    (hp : p.entry < b.chainLength) :
    Pending slots b.load (Function.update b.load p none) b (Store.updateRecord p none 0)
  put {b b' : Bucket RecordBuffer} {p : SlotIndex} {record : RecordBuffer}
    (h : b.Consistent rs tagOf) (hslots : slots b' = b.load) (hload : b'.load = b.load)
    (htag : b'.tag p = b.tag p) (hp : p.entry < b'.chainLength)
    (hadmits : KeyedSlots.Admits rs.keyOf b.load p (rs.keyOf record)) :
    Pending slots b.load (Function.update b.load p (some record)) b'
      (Store.updateRecord p (some record) (tagOf (rs.keyOf record)))

section Stores
variable {rs : RecordSerializer} {tagOf : Key → UInt8} {b b' : Bucket RecordBuffer} {p : SlotIndex}
  {view : Bucket RecordBuffer → SlotIndex → Option RecordBuffer}

theorem Settled.view_eq (h : Settled view v b stores) : view b = v := by
  cases h with
  | nil h => exact h
  | cons h => exact h

theorem Pending.view_eq (h : Pending view v v' b stores) : view b = v := by
  cases h with
  | wait h => exact h
  | switch h => exact h

/-- `UpdateRecord` with no record: the slot is empty from its first store on. -/
theorem pending_clear (h : b.Consistent rs tagOf) (hp : p.entry < b.chainLength) :
    Pending (Bucket.visible rs tagOf) b.load (Function.update b.load p none) b
      (Store.updateRecord p none 0) := by
  have hdata : (b.storeData p none).visible rs tagOf = Function.update b.load p none := by
    rw [Bucket.visible_storeData hp, h.visible, Option.filter_none]
  have hlength : p.entry < (b.storeData p none).chainLength := by simpa using hp
  have hload : (b.storeData p none).load p = none := by
    rw [Bucket.load_storeData, if_pos ⟨rfl, hp⟩]
  refine .switch h.visible (.cons hdata (.nil ?_))
  rw [Store.apply, Store.apply, Bucket.visible_storeTag hlength, hdata, hload, Option.filter_none,
    Function.update_idem]

/-- `UpdateRecord` with a record: it can be seen from its first store on if the slot has its tag,
else from its second one on. -/
theorem pending_put (h : b.Consistent rs tagOf) (hvisible : b'.visible rs tagOf = b.load)
    (htag : b'.tag p = b.tag p) (hp : p.entry < b'.chainLength)
    (hadmits : KeyedSlots.Admits rs.keyOf b.load p (rs.keyOf record)) :
    Pending (Bucket.visible rs tagOf) b.load (Function.update b.load p (some record)) b'
      (Store.updateRecord p (some record) (tagOf (rs.keyOf record))) := by
  have hfilter (t : UInt8) : (some record).filter (fun r => decide (t = tagOf (rs.keyOf r))) =
      if t = tagOf (rs.keyOf record) then some record else none := by
    simp [Option.filter]
  have hdata : (b'.storeData p (some record)).visible rs tagOf = _ :=
    Bucket.visible_storeData hp (some record)
  have hlength : p.entry < (b'.storeData p (some record)).chainLength := by simpa using hp
  have hload : (b'.storeData p (some record)).load p = some record := by
    rw [Bucket.load_storeData, if_pos ⟨rfl, hp⟩]
  have hfinal : ((b'.storeData p (some record)).storeTag p (tagOf (rs.keyOf record))).visible
      rs tagOf = Function.update b.load p (some record) := by
    rw [Bucket.visible_storeTag hlength, hdata, hvisible, hload, Function.update_idem,
      hfilter, if_pos rfl]
  rw [hvisible, htag] at hdata
  by_cases heq : b.tag p = tagOf (rs.keyOf record)
  · refine .switch hvisible (.cons ?_ (.nil hfinal))
    rw [Store.apply, hdata, hfilter, if_pos heq]
  · have hnone : b.load p = none := by
      cases hr : b.load p with
      | none => rfl
      | some r => exact absurd (hadmits.1 r hr ▸ h.tags p r hr) heq
    refine .wait hvisible (.switch ?_ (.nil hfinal))
    rw [Store.apply, hdata, hfilter, if_neg heq, ← hnone, Function.update_eq_self]

/-- What look ups can find. -/
def View.visible (rs : RecordSerializer) (tagOf : Key → UInt8) : View rs tagOf where
  slots := Bucket.visible rs tagOf
  consistent h := h.visible
  appendEntry := Bucket.visible_appendEntry
  clear := pending_clear
  put h hvisible _ htag hp hadmits := pending_put h hvisible htag hp hadmits

end Stores

section Sections
variable [Platform] {setting : Setting} {rs : RecordSerializer} {i : setting.BucketIndex}
  {view : View rs tagOf}

/-- What an operation does to the records of its bucket. -/
inductive Operation.Takes (rs : RecordSerializer) (i : setting.BucketIndex)
    (v : SlotIndex → Option RecordBuffer) : Operation → (SlotIndex → Option RecordBuffer) → Prop
  | add (hi : i.val = bucketOf setting (rs.keyOf record))
      (hp : KeyedSlots.Admits rs.keyOf v p (rs.keyOf record)) :
      Takes rs i v (.add record) (Function.update v p (some record))
  | remove (hp : v p = some record) :
      Takes rs i v (.remove (rs.keyOf record)) (Function.update v p none)
  | removeMisses (hi : i.val = bucketOf setting key)
      (hmiss : ∀ p r, v p = some r → rs.keyOf r ≠ key) : Takes rs i v (.remove key) v
  | evict (hp : v p = some record) : Takes rs i v (.evict p record) (Function.update v p none)

theorem val_of_getBucketInfo (h : getBucketInfo setting key = .ok (i, keyTag)) :
    i.val = bucketOf setting key := by
  obtain ⟨j, hj, hinfo⟩ := SharedHashTable.getBucketInfo_ok (Setting.numBuckets_ne_zero i) key
  rw [bucket_of_getBucketInfo h hinfo]
  exact hj

theorem Operation.Plans.takes {b : Bucket RecordBuffer} {operation : Operation}
    (h : operation.Plans rs i b stores) (hb : b.Consistent rs tagOf) (view : View rs tagOf) :
    ∃ v, operation.Takes rs i b.load v ∧
      (Pending view.slots b.load v b stores ∨ v = b.load ∧ Settled view.slots v b stores) := by
  cases h with
  | add record newTag hinfo =>
    obtain rfl := tag_of_getBucketInfo hinfo
    obtain ⟨p, hp⟩ := hb.addSlot (rs.keyOf record)
    refine ⟨_, .add (val_of_getBucketInfo hinfo) hp.admits, .inl ?_⟩
    have hle := hp.entry_le
    simp only [Store.ofAdd, hp.chosen, hp.isNewEntryAdded, decide_eq_true_eq, Option.toList_some,
      List.flatMap_cons, List.flatMap_nil, List.append_nil]
    split_ifs with hnew
    · have hlength : p.entry < b.appendEntry.chainLength := by
        rw [Bucket.chainLength_appendEntry]
        omega
      have hslots := (view.appendEntry b).trans (view.consistent hb)
      exact .wait (view.consistent hb)
        (view.put hb hslots (funext b.load_appendEntry) (b.tag_appendEntry p) hlength hp.admits)
    · exact view.put hb (view.consistent hb) rfl rfl (by omega) hp.admits
  | remove key keyTag hinfo =>
    obtain rfl := tag_of_getBucketInfo hinfo
    rw [Store.ofRemove]
    cases hf : b.find? rs key (tagOf key) with
    | none =>
      exact ⟨b.load, .removeMisses (val_of_getBucketInfo hinfo) (hb.find?_eq_none.mp hf),
        .inr ⟨rfl, .nil (view.consistent hb)⟩⟩
    | some found =>
      obtain ⟨hp, rfl⟩ := hb.find?_eq_some.mp hf
      have hlt := Bucket.mem_positions.mp (Bucket.mem_positions_of_load hp)
      refine ⟨_, .remove hp, .inl ?_⟩
      simpa using view.clear hb hlt
  | evict p record hp =>
    have hlt := Bucket.mem_positions.mp (Bucket.mem_positions_of_load hp)
    exact ⟨_, .evict hp, .inl (view.clear hb hlt)⟩

/-- The records that are seen in the slots of all buckets. -/
def View.records (view : View rs tagOf) (t : SharedHashTable setting) (s : setting.Slot) :
    Option RecordBuffer :=
  view.slots t.buckets[s.1] s.2

/-- The records that look ups can find, in all buckets. -/
def visible (rs : RecordSerializer) (t : SharedHashTable setting) :
    setting.Slot → Option RecordBuffer :=
  (View.visible rs tagOf).records t

/-- What the operations do to the map from the keys to the records. -/
inductive Effect (rs : RecordSerializer) (m : Key → Option RecordBuffer) :
    Operation → Unit → (Key → Option RecordBuffer) → Prop
  | add (record : RecordBuffer) :
      Effect rs m (.add record) () (Function.update m (rs.keyOf record) (some record))
  | remove (key : Key) : Effect rs m (.remove key) () (Function.update m key none)
  | evict (p : SlotIndex) (h : m (rs.keyOf record) = some record) :
      Effect rs m (.evict p record) () (Function.update m (rs.keyOf record) none)

def recordMap (rs : RecordSerializer) :
    Linearizability.Object (Key → Option RecordBuffer) Operation Unit where
  effect := Effect rs
  internal _ _ := False

/-- The visible records are those of a map, each in the bucket of its key. -/
structure Shows (rs : RecordSerializer) (v : setting.Slot → Option RecordBuffer)
    (m : Key → Option RecordBuffer) : Prop where
  unique : KeyedSlots.UniqueKeys rs.keyOf v
  home : ∀ s r, v s = some r → s.1.val = bucketOf setting (rs.keyOf r)
  represents : KeyedSlots.Represents rs.keyOf v m

omit [Platform] in
theorem update_bucket (v : setting.Slot → Option RecordBuffer) (i : setting.BucketIndex)
    (p : SlotIndex) (data : Option RecordBuffer) :
    (fun s : setting.Slot =>
      if s.1 = i then Function.update (fun p => v (i, p)) p data s.2 else v s) =
      Function.update v (i, p) data := by
  funext ⟨j, q⟩
  by_cases hj : j = i
  · subst hj
    simp [Function.update_apply]
  · simp [hj]

omit [Platform] in
theorem same_bucket (v : setting.Slot → Option RecordBuffer) (i : setting.BucketIndex) :
    (fun s : setting.Slot => if s.1 = i then v (i, s.2) else v s) = v := by
  funext ⟨j, q⟩
  split_ifs with hj
  · rw [← hj]
  · rfl

theorem Shows.admits {v : setting.Slot → Option RecordBuffer} (h : Shows rs v m)
    (hi : i.val = bucketOf setting key)
    (hp : KeyedSlots.Admits rs.keyOf (fun p => v (i, p)) p key) :
    KeyedSlots.Admits rs.keyOf v (i, p) key := by
  refine ⟨hp.1, fun ⟨j, q⟩ r hq hk => ?_⟩
  have hj : j = i := Fin.ext ((h.home (j, q) r hq).trans (hk ▸ hi.symm))
  subst hj
  rw [hp.2 q r hq hk]

theorem Shows.clear {v : setting.Slot → Option RecordBuffer} (h : Shows rs v m)
    (hs : v s = some record) :
    Shows rs (Function.update v s none) (Function.update m (rs.keyOf record) none) where
  unique := h.unique.update_none
  home s' r hs' := by
    rw [Function.update_apply] at hs'
    split_ifs at hs'
    exact h.home s' r hs'
  represents := h.represents.update_none h.unique hs

theorem Shows.takes {v : setting.Slot → Option RecordBuffer} {operation : Operation}
    (h : Shows rs v m) (htakes : operation.Takes rs i (fun p => v (i, p)) v') :
    ∃ m', Effect rs m operation () m' ∧
      Shows rs (fun s => if s.1 = i then v' s.2 else v s) m' := by
  cases htakes with
  | @add record p hi hp =>
    have hadmits := h.admits hi hp
    refine ⟨_, .add record, ?_⟩
    rw [update_bucket]
    refine ⟨h.unique.update_some hadmits, fun s r hs => ?_, h.represents.update_some hadmits⟩
    rw [Function.update_apply] at hs
    split_ifs at hs with heq
    · obtain rfl := Option.some.inj hs
      rw [heq]
      exact hi
    · exact h.home s r hs
  | @remove p record hp =>
    refine ⟨_, .remove (rs.keyOf record), ?_⟩
    rw [update_bucket]
    exact h.clear hp
  | @removeMisses key hi hmiss =>
    have hnone : m key = none := by
      refine h.represents.eq_none.mpr fun ⟨j, q⟩ r hs hk => ?_
      obtain rfl : j = i := Fin.ext ((h.home (j, q) r hs).trans (hk ▸ hi.symm))
      exact hmiss q r hs hk
    refine ⟨_, .remove key, ?_⟩
    rw [← hnone, Function.update_eq_self, same_bucket]
    exact h
  | @evict p record hp =>
    refine ⟨_, .evict p ((h.represents _ _).mpr ⟨_, hp, rfl⟩), ?_⟩
    rw [update_bucket]
    exact h.clear hp

/-- Where a critical section stands: before the store that shows its effect, or after it. -/
inductive Stands (view : View rs tagOf) (i : setting.BucketIndex)
    (b : Bucket RecordBuffer) :
    Option CriticalSection → Linearizability.Status Operation Unit → Prop
  | idle : Stands view i b none .idle
  | called (htakes : operation.Takes rs i (view.slots b) v)
      (h : Pending view.slots (view.slots b) v b stores) :
      Stands view i b (some ⟨operation, stores⟩) (.called operation)
  | done (h : Settled view.slots (view.slots b) b stores) :
      Stands view i b (some ⟨operation, stores⟩) (.done operation ())

/-- The map and its operations stand for the table and its critical sections. -/
structure Follows (view : View rs tagOf) (s : System setting)
    (a : Linearizability.System Nat (Key → Option RecordBuffer) Operation Unit) : Prop where
  shows : Shows rs (view.records s.table) a.state
  stands : ∀ i : setting.BucketIndex,
    Stands view i s.table.buckets[i] (s.sections i) (a.threads i)

/-- The calls and returns of the writers. -/
def Event.call? : Event setting → Option (Nat × Linearizability.Event Operation Unit)
  | .enter i operation => some (i, .call operation)
  | .leave i _ => some (i, .respond ())
  | _ => none

theorem View.records_setBucket (view : View rs tagOf) (t : SharedHashTable setting)
    (i : setting.BucketIndex) (b : Bucket RecordBuffer) :
    view.records (t.setBucket i b) = fun s => if s.1 = i then view.slots b s.2
      else view.records t s := by
  funext ⟨j, q⟩
  simp only [View.records, SharedHashTable.getElem_setBucket]
  split_ifs <;> rfl

theorem Follows.turn {s : System setting} (h : Follows view s a) (hstatus : a.threads i = status)
    (hturn : Linearizability.Turn (recordMap rs) a.state status events state status')
    (hshows : Shows rs (view.records table) state)
    (hstands : Stands view i table.buckets[i] critical status')
    (hothers : ∀ j : setting.BucketIndex, j ≠ i → table.buckets[j] = s.table.buckets[j]) :
    ∃ labels a', Run (Linearizability.Step (recordMap rs)) a labels a' ∧
      Linearizability.history labels = events.map (Prod.mk i.val) ∧
      Follows view ⟨table, Function.update s.sections i critical, s.lookup⟩ a' := by
  subst hstatus
  obtain ⟨labels, hrun, hlabels⟩ := hturn.run_of_threads
  refine ⟨labels, _, hrun, hlabels, hshows, fun j => ?_⟩
  show Stands view j table.buckets[j] (Function.update s.sections i critical j) _
  rw [Linearizability.System.threads_setThread]
  by_cases hj : j = i
  · subst hj
    rw [if_pos rfl, Function.update_self]
    exact hstands
  · rw [if_neg fun heq => hj (Fin.ext heq), hothers j hj, Function.update_of_ne hj]
    exact h.stands j

theorem Follows.enter {s : System setting} (h : Follows view s a) (hfree : s.sections i = none)
    (hb : s.table.buckets[i].Consistent rs tagOf)
    (hplan : operation.Plans rs i s.table.buckets[i] stores) :
    ∃ labels a', Run (Linearizability.Step (recordMap rs)) a labels a' ∧
      Linearizability.history labels = [(i.val, .call operation)] ∧
      Follows view
        ⟨s.table, Function.update s.sections i (some ⟨operation, stores⟩), s.lookup⟩ a' := by
  have hi := h.stands i
  rw [hfree] at hi
  generalize hidle : a.threads i = status at hi
  cases hi
  obtain ⟨v, htakes, hplan⟩ := hplan.takes hb view
  rw [← view.consistent hb] at htakes hplan
  rcases hplan with hpending | ⟨rfl, hsettled⟩
  · exact h.turn hidle (.call operation .done) h.shows (.called htakes hpending) fun _ _ => rfl
  · obtain ⟨m, heffect, hshows⟩ := h.shows.takes htakes
    have hsame := same_bucket (view.records s.table) i
    exact h.turn hidle (.call operation (.effect heffect .done)) (hsame ▸ hshows)
      (.done hsettled) fun _ _ => rfl

theorem Follows.store {s : System setting} (h : Follows view s a)
    (hsection : s.sections i = some ⟨operation, st :: rest⟩) :
    ∃ labels a', Run (Linearizability.Step (recordMap rs)) a labels a' ∧
      Linearizability.history labels = [] ∧
      Follows view ⟨s.table.setBucket i (st.apply s.table.buckets[i]),
        Function.update s.sections i (some ⟨operation, rest⟩), s.lookup⟩ a' := by
  have hi := h.stands i
  rw [hsection] at hi
  generalize hstatus : a.threads i = status at hi
  have hothers (j : setting.BucketIndex) (hj : j ≠ i) :
      (s.table.setBucket i (st.apply s.table.buckets[i])).buckets[j] = s.table.buckets[j] := by
    rw [SharedHashTable.getElem_setBucket, if_neg hj]
  have hstands (status) (h : Stands view i (st.apply s.table.buckets[i])
      (some ⟨operation, rest⟩) status) :
      Stands view i (s.table.setBucket i (st.apply s.table.buckets[i])).buckets[i]
        (some ⟨operation, rest⟩) status := by
    rw [SharedHashTable.getElem_setBucket, if_pos rfl]
    exact h
  -- After the store the bucket shows what it has shown before, or what the operation has made
  -- of it.
  have hsame (hv : view.slots (st.apply s.table.buckets[i]) =
      view.slots s.table.buckets[i]) :
      view.records (s.table.setBucket i (st.apply s.table.buckets[i])) = view.records s.table := by
    rw [view.records_setBucket, hv]
    exact same_bucket (view.records s.table) i
  cases hi with
  | called htakes hpending =>
    cases hpending with
    | wait _ hrest =>
      have hv := hrest.view_eq
      rw [← hv] at htakes hrest
      refine h.turn hstatus .done ?_ (hstands _ (.called htakes hrest)) hothers
      rw [hsame hv]
      exact h.shows
    | switch _ hrest =>
      obtain ⟨m, heffect, hshows⟩ := h.shows.takes htakes
      refine h.turn hstatus (.effect heffect .done) ?_ (hstands _ (.done ?_)) hothers
      · rw [view.records_setBucket, hrest.view_eq]
        exact hshows
      · rw [hrest.view_eq]
        exact hrest
  | done hsettled =>
    cases hsettled with
    | cons _ hrest =>
      have hv := hrest.view_eq
      rw [← hv] at hrest
      refine h.turn hstatus .done ?_ (hstands _ (.done hrest)) hothers
      rw [hsame hv]
      exact h.shows

theorem Follows.leave {s : System setting} (h : Follows view s a)
    (hsection : s.sections i = some ⟨operation, []⟩) :
    ∃ labels a', Run (Linearizability.Step (recordMap rs)) a labels a' ∧
      Linearizability.history labels = [(i.val, .respond ())] ∧
      Follows view ⟨s.table, Function.update s.sections i none, s.lookup⟩ a' := by
  have hi := h.stands i
  rw [hsection] at hi
  generalize hstatus : a.threads i = status at hi
  cases hi with
  | called htakes hpending => cases hpending
  | done => exact h.turn hstatus (.respond operation .done) h.shows .idle fun _ _ => rfl

theorem Follows.step {s t : System setting} (h : Follows view s a) (hinv : Invariant rs s)
    (hstep : Step rs key s e t) :
    ∃ labels a', Run (Linearizability.Step (recordMap rs)) a labels a' ∧
      Linearizability.history labels = e.call?.toList ∧ Follows view t a' := by
  cases hstep with
  | enter i operation stores hfree hplan =>
    have hb := hinv i
    rw [hfree] at hb
    exact h.enter hfree hb hplan
  | store i operation st rest hsection => exact h.store hsection
  | leave i operation hsection => exact h.leave hsection
  | startGet => exact ⟨[], a, .nil, rfl, h.shows, h.stands⟩
  | load => exact ⟨[], a, .nil, rfl, h.shows, h.stands⟩

theorem initial_follows (view : View rs tagOf) (allocator : Allocator) :
    Follows view (initial setting allocator) ⟨fun _ => none, fun _ => .idle⟩ := by
  have hrecords : view.records (initial setting allocator).table = fun _ => none := by
    funext ⟨i, p⟩
    have hslots := view.consistent (initial_invariant rs allocator i)
    have hload := congrFun (SharedHashTable.load_create setting allocator) (i, p)
    exact (congrFun hslots p).trans hload
  refine ⟨?_, fun i => .idle⟩
  rw [hrecords]
  refine ⟨KeyedSlots.uniqueKeys_empty, fun s r hs => ?_, KeyedSlots.represents_empty⟩
  cases hs

theorem Follows.run {s t : System setting} (h : Follows view s a) (hinv : Invariant rs s)
    (hrun : Run (Step rs key) s events t) :
    ∃ labels a', Run (Linearizability.Step (recordMap rs)) a labels a' ∧
      Linearizability.history labels = events.filterMap Event.call? ∧ Follows view t a' := by
  obtain ⟨labels, a', hlabels, hhistory, -, hfollows⟩ := Linearizability.run_of_follows
    (fun s e s' a hstep (h : Invariant rs s ∧ Follows view s a) =>
      have ⟨labels, a', hlabels, hhistory, hfollows⟩ := h.2.step h.1 hstep
      ⟨labels, a', hlabels, hhistory, h.1.step hstep, hfollows⟩) hrun ⟨hinv, h⟩
  exact ⟨labels, a', hlabels, hhistory, hfollows⟩

theorem run_follows {s : System setting} (view : View rs tagOf)
    (hrun : Run (Step rs key) (initial setting allocator) events s) :
    ∃ labels a,
      Run (Linearizability.Step (recordMap rs)) ⟨fun _ => none, fun _ => .idle⟩ labels a ∧
      Linearizability.history labels = events.filterMap Event.call? ∧ Follows view s a :=
  (initial_follows view allocator).run (initial_invariant rs allocator) hrun

/-- The critical sections of the writers show themselves to look ups one after the other, each of
them at one of its stores. At every moment the records that look ups can find are those that the
sections have left that have shown themselves. -/
theorem sections_linearizable (rs : RecordSerializer) (key : Key) (setting : Setting)
    (allocator : Allocator) (events : List (Event setting)) (s : System setting)
    (hrun : Run (Step rs key) (initial setting allocator) events s) :
    ∃ m order, Linearizability.Legal (recordMap rs) (fun _ => none) (order.map Prod.snd) m ∧
      KeyedSlots.Represents rs.keyOf (visible rs s.table) m ∧
      ∀ before after, events.filterMap Event.call? = before ++ after →
        ∃ first second, order = first ++ second ∧ Linearizability.Covers before first := by
  obtain ⟨labels, a, hlabels, hhistory, hfollows⟩ := run_follows (.visible rs tagOf) hrun
  have hlinearizable : Linearizability.Linearizable (recordMap rs) (fun _ => none)
      (events.filterMap Event.call?) a.state := ⟨labels, a.threads, hlabels, hhistory⟩
  obtain ⟨order, hlegal, hsplit⟩ := hlinearizable.exists_order
  exact ⟨a.state, order, hlegal, hfollows.shows.represents, hsplit⟩

omit [Platform] in
/-- An `Add` to one bucket that comes between the stores of an `Add` to another one. -/
theorem sections_linearizable_of_add :
    let _ : Platform := ⟨fun data => (.ofNat data.length, 0), 8, 64⟩
    let setting : Setting := { numBuckets := 2 }
    let i : setting.BucketIndex := ⟨0, by decide⟩
    let j : setting.BucketIndex := ⟨1, by decide⟩
    let rs : RecordSerializer := ⟨0, 0, 0⟩
    let record : RecordBuffer := ⟨0, [0, 0, 0, 0, 0, 0]⟩
    let record' : RecordBuffer := ⟨1, [1, 0, 0, 0, 0, 0, 5]⟩
    let events : List (Event setting) :=
      [.enter i (.add record), .store i, .enter j (.add record'), .store j, .store j,
        .leave j (.add record'), .store i, .leave i (.add record)]
    ∃ s : System setting, Run (Step rs (rs.keyOf record)) (initial setting ⟨0, []⟩) events s ∧
      ∃ m order, Linearizability.Legal (recordMap rs) (fun _ => none) (order.map Prod.snd) m ∧
        KeyedSlots.Represents rs.keyOf (visible rs s.table) m ∧
        ∀ before after, events.filterMap Event.call? = before ++ after →
          ∃ first second, order = first ++ second ∧ Linearizability.Covers before first := by
  have hinfo : @getBucketInfo ⟨fun data => (.ofNat data.length, 0), 8, 64⟩ { numBuckets := 2 }
      (RecordSerializer.keyOf ⟨0, 0, 0⟩ ⟨0, [0, 0, 0, 0, 0, 0]⟩) = .ok (⟨0, by decide⟩, 0) := rfl
  have hinfo' : @getBucketInfo ⟨fun data => (.ofNat data.length, 0), 8, 64⟩ { numBuckets := 2 }
      (RecordSerializer.keyOf ⟨0, 0, 0⟩ ⟨1, [1, 0, 0, 0, 0, 0, 5]⟩) = .ok (⟨1, by decide⟩, 0) := rfl
  intro _ setting i j rs record record' events
  have hrun : ∃ s : System setting,
      Run (Step rs (rs.keyOf record)) (initial setting ⟨0, []⟩) events s :=
    ⟨_, .cons (.enter i _ _ rfl (.add record 0 hinfo)) (.cons (.store i _ _ _ rfl)
      (.cons (.enter j _ _ rfl (.add record' 0 hinfo')) (.cons (.store j _ _ _ rfl)
        (.cons (.store j _ _ _ rfl) (.cons (.leave j _ rfl)
          (.cons (.store i _ _ _ rfl) (.cons (.leave i _ rfl) .nil)))))))⟩
  obtain ⟨s, hrun⟩ := hrun
  exact ⟨s, hrun, sections_linearizable rs (rs.keyOf record) setting ⟨0, []⟩ events s hrun⟩

section Misses
variable {key : Key} {s t : System setting}

/-- No look up can find the key. -/
def Hidden (rs : RecordSerializer) (key : Key) (s : System setting) : Prop :=
  ∀ slot r, visible rs s.table slot = some r → rs.keyOf r ≠ key

theorem Store.exists_slot (rs : RecordSerializer) (b : Bucket RecordBuffer) (st : Store) :
    ∃ x, ∀ p, p ≠ x → (st.apply b).visible rs tagOf p = b.visible rs tagOf p := by
  cases st with
  | linkEntry => exact ⟨⟨0, 0⟩, fun p _ => congrFun (Bucket.visible_appendEntry b) p⟩
  | storeData x data =>
    refine ⟨x, fun p hp => Bucket.visible_congr ?_ (Bucket.tag_storeData ..)⟩
    rw [Store.apply, Bucket.load_storeData, if_neg fun h => hp h.1]
  | storeTag x tag =>
    refine ⟨x, fun p hp => Bucket.visible_congr (Bucket.load_storeTag ..) ?_⟩
    rw [Store.apply, Bucket.tag_storeTag, if_neg fun h => hp h.1]

theorem Step.exists_slot (h : Step rs key s e t) (slot : setting.Slot) :
    ∃ x, ∀ y, y ≠ x → visible rs t.table y = visible rs s.table y := by
  cases h with
  | store i operation st rest hsection =>
    obtain ⟨x, hx⟩ := Store.exists_slot rs s.table.buckets[i] st
    refine ⟨(i, x), fun ⟨j, q⟩ hy => ?_⟩
    rw [visible, View.records_setBucket]
    show (if j = i then _ else _) = _
    split_ifs with hj
    · subst hj
      exact hx q fun hq => hy (hq ▸ rfl)
    · rfl
  | _ => exact ⟨slot, fun _ _ => rfl⟩

/-- A look up that is not past the slot of its key misses the key only if it has been hidden. -/
theorem run_missed (hrun : Run (Step rs key) s es t) (hinv : Invariant rs s)
    (hfollows : Follows (.visible rs tagOf) s a) (hl : s.lookup = some l) (htag : l.tag = tagOf key)
    (hslot : visible rs s.table (l.bucket, p) = some r) (hkey : rs.keyOf r = key)
    (hpoint : l.point.NotPast p) (hl' : t.lookup = some l') (hnone : l'.point = .returned none) :
    ∃ first rest mid, es = first ++ rest ∧ Run (Step rs key) s first mid ∧
      Run (Step rs key) mid rest t ∧ Hidden rs key mid := by
  induction hrun generalizing a l r with
  | nil =>
    obtain rfl := Option.some.inj (hl.symm.trans hl')
    rw [hnone] at hpoint
    obtain ⟨v, hv⟩ := hpoint
    cases hv
  | @cons s e s' es t hstep hrest ih =>
    by_cases hhidden : Hidden rs key s'
    · exact ⟨[e], es, s', rfl, .single hstep, hrest, hhidden⟩
    rw [Hidden] at hhidden
    push Not at hhidden
    obtain ⟨slot, r', hslot', hkey'⟩ := hhidden
    obtain ⟨-, a', -, -, hfollows'⟩ := hfollows.step hinv hstep
    obtain ⟨x, hx⟩ := hstep.exists_slot (l.bucket, p)
    obtain rfl := hfollows.shows.unique.same_slot hfollows'.shows.unique hx hslot hslot'
      (hkey.trans hkey'.symm)
    have hholds : s.table.buckets[l.bucket].HoldsKey rs key l.tag p := by
      obtain ⟨hload, hslotTag⟩ := Bucket.visible_eq_some.mp hslot
      exact ⟨⟨r, hload, hkey⟩, by rw [hslotTag, hkey, htag]⟩
    have hrest' : ∃ first rest mid, es = first ++ rest ∧ Run (Step rs key) s' first mid ∧
        Run (Step rs key) mid rest t ∧ Hidden rs key mid := by
      rcases hstep.lookup hl with hl₁ | ⟨-, hl₁⟩
      · exact ih (hinv.step hstep) hfollows' hl₁ htag hslot' hkey' hpoint hl'
      · exact ih (hinv.step hstep) hfollows' hl₁ htag hslot' hkey'
          (Point.next_notPast hholds hpoint) hl'
    obtain ⟨first, rest, mid, rfl, hfirst, hrest, hmid⟩ := hrest'
    exact ⟨e :: first, rest, mid, rfl, .cons hstep hfirst, hrest, hmid⟩

theorem run_hidden (hbefore : Run (Step rs key) (initial setting allocator) before s)
    (hget : Run (Step rs key) s (.startGet :: during) t) (hl : t.lookup = some l)
    (hnone : l.point = .returned none) :
    ∃ first rest mid, during = first ++ rest ∧ Run (Step rs key) s (.startGet :: first) mid ∧
      Run (Step rs key) mid rest t ∧ Hidden rs key mid := by
  obtain ⟨-, a, -, -, hfollows⟩ := run_follows (.visible rs tagOf) hbefore
  have hinv := reachable_invariant hbefore
  cases hget with
  | @cons _ _ s₁ _ _ hstart hduring =>
    obtain ⟨-, a₁, -, -, hfollows₁⟩ := hfollows.step hinv hstart
    by_cases hhidden : Hidden rs key s₁
    · exact ⟨[], during, s₁, rfl, .single hstart, hduring, hhidden⟩
    rw [Hidden] at hhidden
    push Not at hhidden
    obtain ⟨⟨j, p⟩, r, hslot, hkey⟩ := hhidden
    have hhome := hfollows₁.shows.home (j, p) r hslot
    have hinv₁ := hinv.step hstart
    cases hstart with
    | startGet i keyTag hidle hinfo =>
      obtain rfl : j = i := by
        refine Fin.ext ?_
        rw [val_of_getBucketInfo hinfo, ← hkey]
        exact hhome
      have hpoint : (Point.atTag 0 0).NotPast p := by
        rintro (hlt | ⟨-, hlt⟩) <;> exact absurd hlt (Nat.not_lt_zero _)
      obtain ⟨first, rest, mid, hsplit, hfirst, hrest, hmid⟩ := run_missed hduring hinv₁ hfollows₁
        rfl (tag_of_getBucketInfo hinfo) hslot hkey hpoint hl hnone
      exact ⟨first, rest, mid, hsplit, .cons (.startGet j keyTag hidle hinfo) hfirst, hrest, hmid⟩

/-- At some moment of a `Get` that returns nothing no look up could find the key, whatever the
writers do meanwhile. -/
theorem get_missed (rs : RecordSerializer) (key : Key) (setting : Setting) (allocator : Allocator)
    (before during : List (Event setting)) (s t : System setting)
    (hbefore : Run (Step rs key) (initial setting allocator) before s)
    (hget : Run (Step rs key) s (.startGet :: during) t) (l : Lookup setting)
    (hl : t.lookup = some l) (hnone : l.point = .returned none) :
    ∃ first rest mid, during = first ++ rest ∧ Run (Step rs key) s (.startGet :: first) mid ∧
      Run (Step rs key) mid rest t ∧ Hidden rs key mid :=
  run_hidden hbefore hget hl hnone

theorem run_loads (n : Nat) (hl : s.lookup = some l)
    (hrunning : ∀ k < n,
      ((Point.next rs key l.tag s.table.buckets[l.bucket])^[k] l.point).Running) :
    Run (Step rs key) s (.replicate n .load) { s with
      lookup := some { l with
        point := (Point.next rs key l.tag s.table.buckets[l.bucket])^[n] l.point } } := by
  induction n generalizing s l with
  | zero =>
    obtain ⟨table, sections, lookup⟩ := s
    obtain rfl : lookup = some l := hl
    exact .nil
  | succ n ih =>
    have hfirst := hrunning 0 (Nat.succ_pos n)
    have hload : Step rs key s .load _ := .load l hl hfirst
    exact .cons hload (ih (l := { l with point := l.point.next rs key l.tag _ }) rfl
      fun k hk => hrunning (k + 1) (Nat.succ_lt_succ hk))

omit [Platform] in
/-- A `Remove` of the key comes between the loads of its tag and of its data pointer. -/
theorem get_missed_of_remove :
    let _ : Platform := ⟨fun _ => (7, 1), 8, 64⟩
    let i : Setting.BucketIndex {} := ⟨0, by decide⟩
    let rs : RecordSerializer := ⟨0, 0, 0⟩
    let record : RecordBuffer := ⟨0, [0, 0, 1, 0, 0, 0, 5]⟩
    let key : Key := rs.keyOf record
    let removal : List (Event {}) :=
      [.enter i (.remove key), .store i, .store i, .leave i (.remove key)]
    ∃ (s t mid : System {}) (first rest : List (Event {})),
      visible rs s.table (i, ⟨0, 0⟩) = some record ∧
      .load :: removal ++ .replicate 17 .load = first ++ rest ∧
      Run (Step rs key) s (.startGet :: first) mid ∧ Run (Step rs key) mid rest t ∧
      Hidden rs key mid := by
  have hinfo : @getBucketInfo ⟨fun _ => (7, 1), 8, 64⟩ {}
      (RecordSerializer.keyOf ⟨0, 0, 0⟩ ⟨0, [0, 0, 1, 0, 0, 0, 5]⟩) = .ok (⟨0, by decide⟩, 1) := rfl
  intro _ i rs record key removal
  let l (point : Point) : Lookup {} := ⟨i, 1, point⟩
  obtain ⟨s, hbefore, hidle, hvisible, t, hremove, hlookup, hbucket⟩ : ∃ s : System {},
      Run (Step rs key) (initial {} ⟨0, []⟩)
        [.enter i (.add record), .store i, .store i, .leave i (.add record)] s ∧
      s.lookup = none ∧ visible rs s.table (i, ⟨0, 0⟩) = some record ∧
      ∃ t : System {}, Run (Step rs key) { s with lookup := some (l (.atTag 0 0)) }
        (.load :: removal) t ∧ t.lookup = some (l (.atData 0 0)) ∧
        t.table.buckets[i] = .empty := by
    refine ⟨_, .cons (.enter i _ _ rfl (.add record 1 hinfo)) (.cons (.store i _ _ _ rfl)
      (.cons (.store i _ _ _ rfl) (.cons (.leave i _ rfl) .nil))), rfl, rfl, ?_⟩
    refine ⟨_, .cons (.load _ rfl trivial) (.cons (.enter i _ _ rfl (.remove key 1 hinfo))
      (.cons (.store i _ _ _ rfl) (.cons (.store i _ _ _ rfl) (.cons (.leave i _ rfl) .nil)))),
      rfl, rfl⟩
  have hrunning : ∀ k < 17,
      ((Point.next rs key 1 t.table.buckets[i])^[k] (.atData 0 0)).Running := by
    rw [hbucket]
    intro k hk
    interval_cases k <;> exact trivial
  have hreturned :
      (Point.next rs key 1 t.table.buckets[i])^[17] (.atData 0 0) = .returned none := by
    rw [hbucket]
    rfl
  have hloads : Run (Step rs key) t (.replicate 17 .load) _ := run_loads 17 hlookup hrunning
  have hget := Run.cons (.startGet i 1 hidle hinfo) (hremove.append hloads)
  obtain ⟨first, rest, mid, hmissed⟩ :=
    get_missed rs key {} ⟨0, []⟩ _ _ s _ hbefore hget _ rfl hreturned
  exact ⟨s, _, mid, first, rest, hvisible, hmissed⟩

end Misses

end Sections

end ConcurrentLookup

end L4
